import Cs3650.Nufs.WriteEffect

/-!
# What a write leaves alone

The page that `storage_write` copies to is not one that was allocated for the
file: other data may lie there, and the page goes to others later.
-/

namespace Cs3650.Nufs

open Cs3650.Lib

/-- The path leads to the file through directories. -/
def LeadsTo (m : Image) (path : Path) (j : Nat) : Prop :=
  treeLookup m path = j ∧ IsFile m j ∧
    WalkWith m (fun cur _ => IsDir m cur) 0 (sSplit path.text slash)

/-- The bytes of a file that `storage_read` returns. -/
def contentBytes (m : Image) (j : Nat) : Set Int := span (pagesGetPage j) (fileSize m j).toNat

/-- Other files, directories, inodes and bits are the same, but for pages that
have been allocated to inode `i`. -/
structure KeepsOthers (m m' : Image) (i : Nat) : Prop where
  files : ∀ path j, LeadsTo m path j → j ≠ i → ∀ n offset : Nat, offset + n < 2 ^ 64 →
    storageRead m' path n offset = storageRead m path n offset
  entries : ∀ d : Nat, IsDir m d → ∀ x ∈ span (pagesGetPage (ptr m d 0)) 4096, m' x = m x
  inodes : ∀ j < 256, j ≠ i → ∀ x ∈ span (getInode j) INODE_SIZE, m' x = m x
  inodeBits : ∀ j < 256, bit m' getInodeBitmap j = bit m getInodeBitmap j
  pageBits : ∀ p < 256, bit m' getPagesBitmap p ≠ bit m getPagesBitmap p →
    bit m getPagesBitmap p = false ∧ 0 < p ∧ ∃ r < 1027, recorded m' i r = p

/-- A write that succeeds keeps everything else. -/
def Isolated (m : Image) (path : Path) (buf : Str) (offset junk : Int) : Prop :=
  ∀ i : Nat, treeLookup m path = i → IsFile m i → 0 ≤ (storageWrite junk m path buf offset).2 →
    KeepsOthers m (storageWrite junk m path buf offset).1 i

/-- What growing writes to, if the file grows. -/
def growWrites (m : Image) (i : Nat) (size : Int) : Set Int :=
  {x | fileSize m i < size ∧ x ∈ growBytes m i (toInt size)}

/-- The directories are sound, a smaller size frees no page, and neither the
entries of new pages nor the bytes that are copied meet the tables, a directory,
another file or one another. -/
structure WriteClear (m : Image) (path : Path) (i : Nat) (buf : Str) (offset : Int) : Prop where
  sound : ∀ d : Nat, IsDir m d → SoundDir m d
  walk : WalkWith m (fun cur _ => IsDir m cur) 0 (sSplit path.text slash)
  shrink : writtenSize buf offset < fileSize m i →
    ownedBytes m (getInode i) ≤ toInt (writtenSize buf offset) ∧
    (pagesOwned m (getInode i) ≤ 2 → ptr m i 2 = 0)
  grow : fileSize m i < writtenSize buf offset → GrowSound m i (toInt (writtenSize buf offset))
  tables : ∀ x ∈ copyBytes i buf offset, x ∉ span 0 (getInode 256).toNat
  entries : ∀ x ∈ copyBytes i buf offset, x ∉ growWrites m i (writtenSize buf offset)
  dirs : ∀ d : Nat, IsDir m d → ∀ x ∈ span (pagesGetPage (ptr m d 0)) 4096,
    x ∉ growWrites m i (writtenSize buf offset) ∧ x ∉ copyBytes i buf offset
  files : ∀ j : Nat, IsFile m j → j ≠ i → ∀ x ∈ contentBytes m j,
    x ∉ truncateArea m i (writtenSize buf offset) (growWrites m i (writtenSize buf offset)) ∧
      x ∉ copyBytes i buf offset

section

variable {m m' : Image} {path : Path} {i : Nat} {buf : Str} {offset junk : Int}

theorem recorded_kept {r : Nat} (hr : r < 1027) (hptr : ∀ j < 3, ptr m' i j = ptr m i j)
    (hpage : 3 ≤ r → ∀ x ∈ span (pagesGetPage (ptr m i 2)) 4096, m' x = m x) :
    recorded m' i r = recorded m i r := by
  unfold recorded
  by_cases h3 : r < 3
  · rw [if_pos h3, if_pos h3, hptr r h3]
  · rw [if_neg h3, if_neg h3, hptr 2 (by decide)]
    have hsame : ChangedIn {x | x ∉ span (pagesGetPage (ptr m i 2)) 4096} m m' := fun x hx =>
      hpage (Nat.not_lt.mp h3) x (not_not.mp hx)
    have hentry : pageEntry m' (ptr m i 2) (r - 3) = pageEntry m (ptr m i 2) (r - 3) := by
      apply hsame.int32
      intro x hx hout
      apply hout
      simp only [mem_span] at hx ⊢
      omega
    rw [hentry]

theorem WriteClear.growing (hi : i < 256) (h : WriteClear m path i buf offset)
    (hok : fileSize m i ≠ writtenSize buf offset →
      0 ≤ (resize junk m i (writtenSize buf offset)).2) :
    Growing m i 1027 (growWrites m i (writtenSize buf offset))
      (resize junk m i (writtenSize buf offset)).1 ∧
      ((resize junk m i (writtenSize buf offset)).1 = m ∨ bit m getPagesBitmap 0 = true) := by
  have hnothing : Growing m i 1027 (growWrites m i (writtenSize buf offset)) m :=
    (Growing.start m i _).mono (Nat.zero_le 1027) fun _ hx => hx
  have hshrink := h.shrink
  have hgrow := h.grow
  generalize writtenSize buf offset = size at hshrink hgrow hok hnothing ⊢
  unfold resize at hok ⊢
  by_cases hless : fileSize m i > size
  · obtain ⟨hfits, hfew⟩ := hshrink hless
    rw [if_pos hless, fst_of_eq (shrinkInode_fits junk hfits hfew)]
    exact ⟨hnothing, Or.inl rfl⟩
  · rw [if_neg hless] at hok ⊢
    by_cases hmore : fileSize m i < size
    · rw [if_pos hmore] at hok ⊢
      have hgrowing := growInode_growing hi (hgrow hmore) (hok (Int.ne_of_lt hmore))
      refine ⟨hgrowing.mono (Nat.le_refl 1027) fun x hx => ⟨hmore, hx⟩, ?_⟩
      rcases hgrow hmore with henough | ⟨hres, -⟩
      · exact Or.inl (growInode_same henough)
      · exact Or.inr hres.1
    · rw [if_neg hmore]
      exact ⟨hnothing, Or.inl rfl⟩

/-- Everything that the write changes. -/
def writeArea (m : Image) (i : Nat) (buf : Str) (offset : Int) : Set Int :=
  {x | x ∈ truncateArea m i (writtenSize buf offset) (growWrites m i (writtenSize buf offset)) ∨
    x ∈ copyBytes i buf offset}

theorem WriteClear.grow_above (h : WriteClear m path i buf offset) :
    ∀ x ∈ growWrites m i (writtenSize buf offset), 8192 ≤ x := by
  rintro x ⟨hmore, hx⟩
  exact (growBytes_above (h.grow hmore) x hx).1

/-- In the tables that is the page bitmap and the record of the inode. -/
theorem WriteClear.area_tables (h : WriteClear m path i buf offset) {x : Int} (hlo : 32 ≤ x)
    (hhi : x < getInode 256)
    (hout : x ∉ span (getInode i) INODE_SIZE) : x ∉ writeArea m i buf offset := by
  rintro ((⟨-, hx | hx⟩ | hx) | hx)
  · simp only [mem_span] at hx
    omega
  · apply hout
    simp only [mem_span, INODE_SIZE, Inode.size] at hx ⊢
    omega
  · have := h.grow_above x hx
    simp only [getInode_eq] at hhi
    omega
  · apply h.tables x hx
    simp only [mem_span, getInode_eq] at hhi ⊢
    omega

theorem WriteClear.area_dir (h : WriteClear m path i buf offset) (hfile : IsFile m i) {d : Nat}
    (hdir : IsDir m d) :
    ∀ x ∈ span (pagesGetPage (ptr m d 0)) 4096, x ∉ writeArea m i buf offset := by
  intro x hx
  obtain ⟨hgrow, hcopy⟩ := h.dirs d hdir x hx
  obtain ⟨-, h2, -⟩ := (h.sound d hdir).1
  have hi := hfile.2.1
  rw [Int.toNat_natCast] at h2
  simp only [mem_span, pagesGetPage] at hx
  rintro ((⟨-, hx' | hx'⟩ | hx') | hx')
  · simp only [mem_span] at hx'
    omega
  · simp only [mem_span, getInode_eq, Inode.size] at hx'
    omega
  · exact hgrow hx'
  · exact hcopy hx'

theorem WriteClear.pathOff (h : WriteClear m path i buf offset) (hfile : IsFile m i) {q : Path}
    (hwalk : WalkWith m (fun cur _ => IsDir m cur) 0 (sSplit q.text slash)) :
    PathOff m q (writeArea m i buf offset) := by
  refine WalkWith.imp hwalk fun cur _ hdir => ?_
  obtain ⟨d, rfl, hd, -, -⟩ := hdir.nat
  refine ⟨h.sound d hdir, fun x hx => ?_, h.area_dir hfile hdir⟩
  have hne : d ≠ i := by
    rintro rfl
    have hbit := hdir.2.2.2
    rw [hfile.2.2.2] at hbit
    cases hbit
  simp only [mem_span, getInode_eq, Inode.dptrs] at hx
  apply h.area_tables (by omega)
  · simp only [getInode_eq]
    omega
  · simp only [mem_span, getInode_eq, INODE_SIZE]
    omega

theorem WriteClear.written (h : WriteClear m path i buf offset) (hlook : treeLookup m path = i)
    (hfile : IsFile m i) (hok : 0 ≤ (storageWrite junk m path buf offset).2) :
    ∃ m₁, ChangedIn (copyBytes i buf offset) m₁ (storageWrite junk m path buf offset).1 ∧
      ChangedIn
        (truncateArea m i (writtenSize buf offset) (growWrites m i (writtenSize buf offset))) m m₁ ∧
      ∃ m₀, Growing m i 1027 (growWrites m i (writtenSize buf offset)) m₀ ∧
        (m₀ = m ∨ bit m getPagesBitmap 0 = true) ∧
        ChangedIn (span (getInode i + Inode.size) 4) m₀ m₁ := by
  have hi : i < 256 := by
    have := hfile.2.1
    omega
  have hpath : PathOff m path
      (truncateArea m i (writtenSize buf offset) (growWrites m i (writtenSize buf offset))) :=
    (h.pathOff hfile h.walk).mono fun x hx => Or.inl hx
  have hchanged : 0 ≤ (storageTruncate junk m path (writtenSize buf offset)).2 →
      ChangedIn
        (truncateArea m i (writtenSize buf offset) (growWrites m i (writtenSize buf offset))) m
        (storageTruncate junk m path (writtenSize buf offset)).1 := fun hrv =>
    storageTruncate_changed hlook (h.growing hi fun _ => storageTruncate_ok hlook hrv).1.changed
  obtain ⟨hrv, hwrite⟩ := storageWrite_done hlook hpath hchanged hok
  have hresize : fileSize m i ≠ writtenSize buf offset →
      0 ≤ (resize junk m i (writtenSize buf offset)).2 := fun _ => storageTruncate_ok hlook hrv
  obtain ⟨hgrowing, hsame⟩ := h.growing hi hresize
  refine ⟨(storageTruncate junk m path (writtenSize buf offset)).1, ?_, hchanged hrv, _,
    hgrowing, hsame, ?_⟩
  · rw [fst_of_eq hwrite]
    exact changedIn_patch _ _ _ _
  · rw [fst_of_eq (storageTruncate_at junk hlook _)]
    exact changedIn_setInt32 _ _ _

theorem storageRead_same {j : Nat} (hlook : treeLookup m path = j) (hlook' : treeLookup m' path = j)
    (hsize : fileSize m' j = fileSize m j) (hcontents : ∀ x ∈ contentBytes m j, m' x = m x)
    {n offset : Nat}
    (hrange : offset + n < 2 ^ 64) :
    storageRead m' path n offset = storageRead m path n offset := by
  have hbound := int32_range m (getInode j + Inode.size)
  unfold fileSize at hsize
  unfold contentBytes fileSize at hcontents
  unfold storageRead
  dsimp only
  rw [hlook, hlook', hsize]
  generalize int32 m (getInode j + Inode.size) = size at hcontents hbound
  have hnonneg : ¬ (j : Int) < 0 := Int.not_lt.mpr (Int.natCast_nonneg j)
  rw [if_neg hnonneg, if_neg hnonneg]
  by_cases hpast : (offset : Int) ≥ size
  · rw [if_pos hpast, if_pos hpast]
  · rw [if_neg hpast, if_neg hpast]
    congr 1
    apply List.map_congr_left
    intro x hx
    obtain ⟨k, hk, rfl⟩ : ∃ k : Nat, (k : Int) < (if toSize size ≤ toSize ((offset : Int) + n) then
        toSize (size - offset) else n) ∧ x = k := by simpa using hx
    apply hcontents
    have hin : offset + k < size := by
      unfold toSize at hk
      split at hk
      · omega
      · omega
    simp only [mem_span]
    omega

theorem WriteClear.keeps (h : WriteClear m path i buf offset) (hlook : treeLookup m path = i)
    (hfile : IsFile m i)
    (hok : 0 ≤ (storageWrite junk m path buf offset).2) :
    KeepsOthers m (storageWrite junk m path buf offset).1 i := by
  obtain ⟨m₁, hcopy, htruncate, m₀, hgrowing, hsame, hsize⟩ := h.written hlook hfile hok
  generalize (storageWrite junk m path buf offset).1 = m' at hcopy
  have hi := hfile.2.1
  have hchanged : ChangedIn (writeArea m i buf offset) m m' :=
    (htruncate.mono fun x hx => Or.inl hx).trans (hcopy.mono fun x hx => Or.inr hx)
  have htable : ∀ x, 0 ≤ x → x < getInode 256 → x ∉ span (getInode i + Inode.size) 4 →
      m' x = m₀ x := by
    intro x hlo hhi hout
    rw [hcopy x, hsize x hout]
    intro hx
    apply h.tables x hx
    simp only [mem_span, getInode_eq] at hhi ⊢
    omega
  have hinodes : ∀ j < 256, j ≠ i → ∀ x ∈ span (getInode j) INODE_SIZE, m' x = m x := by
    intro j hj hne x hx
    apply hchanged
    simp only [mem_span, getInode_eq, INODE_SIZE] at hx
    apply h.area_tables (by omega)
    · simp only [getInode_eq]
      omega
    · simp only [mem_span, getInode_eq, INODE_SIZE]
      omega
  constructor
  case files =>
    rintro q j ⟨hq, hqfile, hwalk⟩ hne n off hrange
    have hj := hqfile.2.1
    have hq' := (h.pathOff hfile hwalk).lookup_same (hq ▸ Int.natCast_nonneg j) hchanged
    apply storageRead_same hq (hq'.trans hq) _ _ hrange
    · have hrecord : ChangedIn {x | x ∉ span (getInode j) INODE_SIZE} m m' := fun x hx =>
        hinodes j (by omega) hne x (not_not.mp hx)
      apply hrecord.int32
      intro x hx hout
      apply hout
      simp only [mem_span, INODE_SIZE, Inode.size] at hx ⊢
      omega
    · intro x hx
      obtain ⟨harea, hcopied⟩ := h.files j hqfile hne x hx
      exact hchanged x fun hw => hw.elim harea hcopied
  case entries => exact fun d hdir x hx => hchanged x (h.area_dir hfile hdir x hx)
  case inodes => exact hinodes
  case inodeBits =>
    intro j hj
    apply bit_changedIn hchanged
    apply h.area_tables
    · simp only [getInodeBitmap]
      omega
    · simp only [getInodeBitmap, getInode_eq]
      omega
    · simp only [getInodeBitmap, getInode_eq, mem_span]
      omega
  case pageBits =>
    intro p hp hdiff
    have hbit : bit m' getPagesBitmap p = bit m₀ getPagesBitmap p := by
      unfold bit
      rw [htable]
      · simp only [getPagesBitmap]
        omega
      · simp only [getPagesBitmap, getInode_eq]
        omega
      · simp only [getPagesBitmap, getInode_eq, Inode.size, mem_span]
        omega
    rw [hbit] at hdiff
    have hclear : bit m getPagesBitmap p = false := by
      by_contra hset
      rw [Bool.not_eq_false] at hset
      exact hdiff ((hgrowing.kept p hp hset).trans hset.symm)
    have hset : bit m₀ getPagesBitmap p = true := by
      rw [hclear] at hdiff
      exact Bool.not_eq_false _ ▸ hdiff
    obtain ⟨r, hr, hrec, hpage⟩ := hgrowing.taken p hp hclear hset
    refine ⟨hclear, ?_, r, hr, ?_⟩
    · rcases hsame with rfl | hzero
      · exact absurd rfl hdiff
      · by_contra hnot
        obtain rfl : p = 0 := by omega
        rw [hclear] at hzero
        cases hzero
    · rw [← hrec]
      apply recorded_kept hr
      · intro j hj
        have hrecord : ChangedIn
            {x | ¬(0 ≤ x ∧ x < getInode 256 ∧ x ∉ span (getInode i + Inode.size) 4)} m₀ m' :=
          fun x hx => htable x (not_not.mp hx).1 (not_not.mp hx).2.1 (not_not.mp hx).2.2
        apply ptr_changed hrecord hj
        intro x hx hout
        apply hout
        simp only [mem_span, getInode_eq, Inode.size] at hx ⊢
        omega
      · intro h3 x hx
        have hgrow := hpage h3 x hx
        have habove := h.grow_above x hgrow
        rw [hcopy x fun hx' => h.entries x hx' hgrow, hsize]
        simp only [mem_span, getInode_eq, Inode.size]
        omega

end

/-- In every state that the operations reach. -/
theorem run_write_isolated (m : Image) (ops : List StoreOp) (path : Path) (buf : Str)
    (offset junk : Int) (h : ∀ i : Nat, treeLookup (runStoreOps (storageInit m) ops) path = i →
      WriteClear (runStoreOps (storageInit m) ops) path i buf offset) :
    Isolated (runStoreOps (storageInit m) ops) path buf offset junk :=
  fun i hlook hfile hok => (h i hlook).keeps hlook hfile hok

def threeFiles : List StoreOp :=
  [.mknod ⟨[slash, 0x61], rfl, by decide⟩ 0o100644, .mknod ⟨[slash, 0x62], rfl, by decide⟩ 0o100644,
    .mknod ⟨[slash, 0x63], rfl, by decide⟩ 0o100644]

/-- The third file has the first page that nothing lies in. -/
theorem third_file_isolated :
    Isolated (runStoreOps (storageInit fun _ => 0) threeFiles) ⟨[slash, 0x63], rfl, by decide⟩
    [0x68, 0x69] 0 0 := by
  apply run_write_isolated
  intro i hlook
  have hfacts :
      treeLookup (runStoreOps (storageInit fun _ => 0) threeFiles) ⟨[slash, 0x63], rfl, by decide⟩ =
      3 ∧ (∀ j : Nat, j < 256 →
        Allocated (runStoreOps (storageInit fun _ => 0) threeFiles) j → j < 4) ∧
      (∀ d : Nat, d < 4 → IsDir (runStoreOps (storageInit fun _ => 0) threeFiles) d → d = 0) ∧
      SoundDir (runStoreOps (storageInit fun _ => 0) threeFiles) 0 ∧
      ptr (runStoreOps (storageInit fun _ => 0) threeFiles) 0 0 = 2 ∧
      (∀ j : Nat, j < 4 → IsFile (runStoreOps (storageInit fun _ => 0) threeFiles) j →
        fileSize (runStoreOps (storageInit fun _ => 0) threeFiles) j = 0) ∧
      IsFile (runStoreOps (storageInit fun _ => 0) threeFiles) 3 ∧
      bit (runStoreOps (storageInit fun _ => 0) threeFiles) getPagesBitmap 0 = true ∧
      bit (runStoreOps (storageInit fun _ => 0) threeFiles) getPagesBitmap 1 = true ∧
      WalkWith (runStoreOps (storageInit fun _ => 0) threeFiles)
        (fun cur _ => IsDir (runStoreOps (storageInit fun _ => 0) threeFiles) cur) 0
        (sSplit [slash, 0x63] slash) := by
    decide +kernel
  generalize runStoreOps (storageInit fun _ => 0) threeFiles = m at hlook hfacts ⊢
  obtain ⟨hthree, hused, hroot, hsound, hpage, hempty, hfile, hzero, hone, hwalk⟩ := hfacts
  obtain rfl : i = 3 := by omega
  have hdir : ∀ d : Nat, IsDir m d → d = 0 := fun d hd =>
    hroot d (hused d (by have := hd.2.1; omega) hd.2.2.1) hd
  have hnone : ∀ j : Nat, IsFile m j → fileSize m j = 0 := fun j hj =>
    hempty j (hused j (by have := hj.2.1; omega) hj.2.2.1) hj
  have hgrow : ∀ x, x ∉ growWrites m 3 (writtenSize [0x68, 0x69] 0) := by
    rintro x ⟨-, -, hbig, -⟩
    exact absurd hbig (by decide)
  exact
    { sound := fun d hd => by
        rw [hdir d hd]
        exact hsound
      walk := hwalk
      shrink := fun hless => by
        rw [hnone 3 hfile] at hless
        exact absurd hless (by decide)
      grow := fun _ => Or.inr ⟨⟨hzero, hone⟩, fun hbig => absurd hbig (by decide)⟩
      tables := fun x hx => by
        simp only [copyBytes, pagesGetPage, mem_span, getInode_eq] at hx ⊢
        omega
      entries := fun x _ => hgrow x
      dirs := fun d hd x hx => by
        rw [hdir d hd, hpage] at hx
        refine ⟨hgrow x, fun hx' => ?_⟩
        simp only [copyBytes, pagesGetPage, mem_span, List.length_cons, List.length_nil] at hx hx'
        omega
      files := fun j hj _ x hx => by
        unfold contentBytes at hx
        rw [hnone j hj] at hx
        simp only [mem_span] at hx
        omega }

/-- The second file has the page of the root directory. -/
theorem second_file_hits_root : ¬ ∀ (m : Image) (ops : List StoreOp) (path : Path) (buf : Str)
    (offset junk : Int), Isolated (runStoreOps (storageInit m) ops) path buf offset junk := by
  intro h
  have hfacts :
      treeLookup (runStoreOps (storageInit fun _ => 0) (threeFiles.take 2)) ⟨[slash, 0x62], rfl,
        by decide⟩ = 2 ∧
      IsFile (runStoreOps (storageInit fun _ => 0) (threeFiles.take 2)) 2 ∧
      IsDir (runStoreOps (storageInit fun _ => 0) (threeFiles.take 2)) 0 ∧
      ptr (runStoreOps (storageInit fun _ => 0) (threeFiles.take 2)) 0 0 = 2 ∧
      0 ≤ (storageWrite 0 (runStoreOps (storageInit fun _ => 0) (threeFiles.take 2))
        ⟨[slash, 0x62], rfl, by decide⟩ [0x68] 0).2 ∧
      (storageWrite 0 (runStoreOps (storageInit fun _ => 0) (threeFiles.take 2))
        ⟨[slash, 0x62], rfl, by decide⟩
        [0x68] 0).1 8192 ≠
        runStoreOps (storageInit fun _ => 0) (threeFiles.take 2) 8192 := by decide +kernel
  obtain ⟨hlook, hfile, hdir, hpage, hok, hdiff⟩ := hfacts
  have hkeeps :=
    h (fun _ => 0) (threeFiles.take 2) ⟨[slash, 0x62], rfl, by decide⟩ [0x68] 0 0 2 hlook hfile hok
  apply hdiff
  apply hkeeps.entries 0 hdir
  rw [hpage]
  simp only [pagesGetPage, mem_span]
  omega

end Cs3650.Nufs
