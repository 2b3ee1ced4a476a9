import Cs3650.Lib.Extent
import Cs3650.Nufs.Isolation

/-!
# A file as an array of bytes

The contents of file `i` lie from page `i` on, whatever pages it owns. A write
sets the size to its end, and the bytes between an old size and a new one stay
as they were.
-/

namespace Cs3650.Nufs

open Cs3650.Lib

/-- The calls that change the contents of a file. -/
inductive FileOp
  | write (buf : Str) (offset junk : Int)
  | truncate (len junk : Int)

namespace FileOp

def step (path : Path) (m : Image) : FileOp → Image × Int
  | .write buf offset junk => storageWrite junk m path buf offset
  | .truncate len junk => storageTruncate junk m path len

/-- On an array of bytes. -/
def apply (c : Str) : FileOp → Str
  | .write buf offset _ => overwrite nul c buf offset.toNat
  | .truncate len _ => resizeTo nul c len.toNat

/-- The size that it sets. -/
def size : FileOp → Int
  | .write buf offset _ => offset + buf.length
  | .truncate len _ => len

/-- Where the bytes end that it does not copy. -/
def start : FileOp → Int
  | .write _ offset _ => offset
  | .truncate len _ => len

/-- The bytes that it copies. -/
def copied (i : Nat) : FileOp → Set Int
  | .write buf offset _ => copyBytes i buf offset
  | .truncate _ _ => ∅

end FileOp

def runFileOps (path : Path) (m : Image) (ops : List FileOp) : Image :=
  ops.foldl (fun m op => (op.step path m).1) m

@[simp] theorem runFileOps_nil (path : Path) (m : Image) : runFileOps path m [] = m := rfl

@[simp] theorem runFileOps_cons (path : Path) (m : Image) (op : FileOp) (ops : List FileOp) :
    runFileOps path m (op :: ops) = runFileOps path (op.step path m).1 ops := rfl

/-- The property holds of every call in the state it starts in. -/
def AlongFile (P : Image → FileOp → Prop) (path : Path) : Image → List FileOp → Prop
  | _, [] => True
  | m, op :: ops => P m op ∧ AlongFile P path (op.step path m).1 ops

/-- The bytes of the file. -/
def contents (m : Image) (i : Nat) : Str :=
  extent (fileSize m i).toNat fun k => m (pagesGetPage i + k)

/-- The file has the size of the array, and every read returns its part of the array. -/
structure ReadsAs (m : Image) (path : Path) (i : Nat) (c : Str) : Prop where
  lookup : treeLookup m path = i
  size : fileSize m i = c.length
  reads : ∀ n offset : Nat, offset + n < 2 ^ 64 →
    storageRead m path n offset = (((slice c offset n).length : Int), slice c offset n)

/-- Calls that succeed do to the file what they do to an array. -/
def ActsAsArray (m : Image) (path : Path) (ops : List FileOp) : Prop :=
  ∀ i : Nat, treeLookup m path = i → IsFile m i →
    AlongFile (fun m op => 0 ≤ (op.step path m).2) path m ops →
    ReadsAs (runFileOps path m ops) path i (ops.foldl FileOp.apply (contents m i))

/-- What the call may write to. -/
def FileOp.area (m : Image) (i : Nat) (op : FileOp) : Set Int :=
  {x | x ∈ truncateArea m i op.size (resizeWrites m i op.size) ∨ x ∈ op.copied i}

/-- A write ends at the size or above it, the file stays in the image, the bytes
it grows by are 0, and neither they nor the directories on the way meet what the
change of size writes to. -/
structure ArrayStep (m : Image) (path : Path) (i : Nat) (op : FileOp) : Prop where
  named : i ≠ 0
  nonneg : 0 ≤ fileSize m i ∧ 0 ≤ op.start
  reaches : ∀ buf offset junk, op = .write buf offset junk → fileSize m i ≤ offset + buf.length
  inside : pagesGetPage i + op.size ≤ NUFS_SIZE
  sound : ResizeSound m i op.size
  blank : ∀ k : Nat, fileSize m i ≤ k → k < op.start → m (pagesGetPage i + k) = nul
  apart : ∀ x ∈ span (pagesGetPage i) op.start.toNat, x ∉ resizeWrites m i op.size
  walk : PathOff m path (op.area m i)

section

variable {m : Image} {path : Path} {i : Nat} {op : FileOp}

theorem FileOp.start_le (op : FileOp) : op.start ≤ op.size := by
  cases op with
  | write buf offset junk =>
    show offset ≤ offset + buf.length
    omega
  | truncate len junk => exact Int.le_refl len

theorem ArrayStep.bounds (h : ArrayStep m path i op) : 0 ≤ op.size ∧ op.size ≤ 2 ^ 20 := by
  have hstart := h.nonneg.2
  have hle := op.start_le
  have hinside := h.inside
  simp only [pagesGetPage, NUFS_SIZE] at hinside
  omega

theorem ArrayStep.writtenSize_eq {buf : Str} {offset junk : Int}
    (h : ArrayStep m path i (.write buf offset junk)) :
    writtenSize buf offset = (FileOp.write buf offset junk).size := by
  have hbounds := h.bounds
  simp only [FileOp.size] at hbounds ⊢
  unfold writtenSize toOff
  rw [Int.bmod_def]
  omega

/-- The size is set, and nothing is written below the bytes that are copied. -/
theorem ArrayStep.truncated (h : ArrayStep m path i op) (hi : i < 256)
    (hlook : treeLookup m path = i) {junk : Int}
    (hok : 0 ≤ (storageTruncate junk m path op.size).2) :
    ChangedIn (truncateArea m i op.size (resizeWrites m i op.size)) m
      (storageTruncate junk m path op.size).1 ∧
      fileSize (storageTruncate junk m path op.size).1 i = op.size ∧
      ∀ k : Nat, k < op.start →
        (storageTruncate junk m path op.size).1 (pagesGetPage i + k) = m (pagesGetPage i + k) := by
  have hbounds := h.bounds
  have hchanged : ChangedIn (truncateArea m i op.size (resizeWrites m i op.size)) m
      (storageTruncate junk m path op.size).1 :=
    storageTruncate_changed hlook (h.sound.changed hi fun _ => storageTruncate_ok hlook hok)
  refine ⟨hchanged, ?_, fun k hk => ?_⟩
  · rw [fst_of_eq (storageTruncate_at junk hlook _)]
    exact int32_setInt32_of_lt _ _ hbounds.1 (by omega)
  · have hi0 := h.named
    apply hchanged
    rintro (⟨-, hx | hx⟩ | hx)
    · simp only [mem_span, pagesGetPage] at hx
      omega
    · simp only [mem_span, pagesGetPage, getInode_eq, Inode.size] at hx
      omega
    · apply h.apart _ _ hx
      simp only [mem_span]
      omega

theorem ArrayStep.kept (h : ArrayStep m path i op) {m' : Image}
    (hsame : ∀ k : Nat, k < op.start → m' (pagesGetPage i + k) = m (pagesGetPage i + k)) :
    (∀ k < min (fileSize m i).toNat op.start.toNat, m' (pagesGetPage i + k) =
      m (pagesGetPage i + k)) ∧
      ∀ k, (fileSize m i).toNat ≤ k → k < op.start.toNat → m' (pagesGetPage i + k) = nul := by
  obtain ⟨hsize, hstart⟩ := h.nonneg
  constructor
  · intro k hk
    exact hsame k (by omega)
  · intro k hlo hhi
    rw [hsame k (by omega)]
    exact h.blank k (by omega) (by omega)

theorem ArrayStep.walk_truncate (h : ArrayStep m path i op) :
    PathOff m path (truncateArea m i op.size (resizeWrites m i op.size)) :=
  h.walk.mono fun _ hx => Or.inl hx

theorem ArrayStep.truncate {len junk : Int} (h : ArrayStep m path i (.truncate len junk))
    (hi : i < 256) (hlook : treeLookup m path = i) (hok : 0 ≤ (storageTruncate junk m path len).2) :
    treeLookup (storageTruncate junk m path len).1 path = i ∧
      fileSize (storageTruncate junk m path len).1 i = len ∧
      contents (storageTruncate junk m path len).1 i = resizeTo nul (contents m i) len.toNat := by
  obtain ⟨hchanged, hsize, hsame⟩ := h.truncated hi hlook hok
  obtain ⟨hkept, hblank⟩ := h.kept hsame
  simp only [FileOp.size] at hsize hsame
  refine ⟨(h.walk_truncate.lookup_same (hlook ▸ Int.natCast_nonneg i) hchanged).trans hlook, hsize,
    ?_⟩
  unfold contents
  rw [hsize]
  exact (resizeTo_extent nul hkept hblank).symm

/-- The bytes are copied after the size is set. -/
theorem ArrayStep.overwritten {buf : Str} {offset junk : Int} {m₁ m' : Image}
    (h : ArrayStep m path i (.write buf offset junk)) (hsize : fileSize m₁ i = offset + buf.length)
    (hsame : ∀ k : Nat, k < offset → m₁ (pagesGetPage i + k) = m (pagesGetPage i + k))
    (hcopy : ChangedIn (copyBytes i buf offset) m₁ m')
    (hcopied : ∀ k < buf.length, m' (pagesGetPage i + offset + k) = buf.getD k nul) :
    fileSize m' i = offset + buf.length ∧
    contents m' i = overwrite nul (contents m i) buf offset.toNat := by
  have hi0 := h.named
  have hstart : 0 ≤ offset := h.nonneg.2
  have hreach := h.reaches buf offset junk rfl
  have hsize' : fileSize m' i = offset + buf.length := by
    rw [← hsize]
    apply hcopy.int32
    intro x hx hx'
    simp only [copyBytes, mem_span, getInode_eq, Inode.size, pagesGetPage] at hx hx'
    omega
  have hsame' : ∀ k : Nat, k < offset → m' (pagesGetPage i + k) = m (pagesGetPage i + k) := by
    intro k hk
    rw [hcopy, hsame k hk]
    simp only [copyBytes, mem_span]
    omega
  obtain ⟨hkept, hblank⟩ := h.kept hsame'
  simp only [FileOp.start] at hkept hblank
  have hlength : (offset + buf.length).toNat = offset.toNat + buf.length := by omega
  have hend : (fileSize m i).toNat ≤ offset.toNat + buf.length := by omega
  refine ⟨hsize', ?_⟩
  unfold contents
  rw [hsize', hlength]
  refine (overwrite_extent nul hend hkept hblank fun k hk => ?_).symm
  rw [← hcopied k hk, ← Int.toNat_of_nonneg hstart, Int.toNat_natCast, Nat.cast_add, Int.add_assoc]

theorem ArrayStep.write {buf : Str} {offset junk : Int}
    (h : ArrayStep m path i (.write buf offset junk)) (hi : i < 256)
    (hlook : treeLookup m path = i) (hok : 0 ≤ (storageWrite junk m path buf offset).2) :
    treeLookup (storageWrite junk m path buf offset).1 path = i ∧
      fileSize (storageWrite junk m path buf offset).1 i = offset + buf.length ∧
      contents (storageWrite junk m path buf offset).1 i =
      overwrite nul (contents m i) buf offset.toNat := by
  have hend : 0 ≤ treeLookup m path := hlook ▸ Int.natCast_nonneg i
  have hdone := @storageWrite_done m path i junk buf offset _ hlook h.walk_truncate
  rw [h.writtenSize_eq] at hdone
  obtain ⟨hrv, hwrite⟩ := hdone (fun hrv => (h.truncated hi hlook hrv).1) hok
  obtain ⟨hchanged, hsize, hsame⟩ := h.truncated hi hlook hrv
  rw [fst_of_eq hwrite]
  have hcopy := changedIn_patch (storageTruncate junk m path (FileOp.write buf offset junk).size).1
    (pagesGetPage i + offset) buf.length fun k => buf.getD k nul
  refine ⟨?_, h.overwritten hsize hsame hcopy fun k hk => patch_inside _ _ _ _ hk⟩
  exact (h.walk.lookup_same hend
    ((hchanged.mono fun x hx => Or.inl hx).trans (hcopy.mono fun x hx => Or.inr hx))).trans hlook

theorem readsAs_contents (hlook : treeLookup m path = i) (hsize : 0 ≤ fileSize m i) :
    ReadsAs m path i (contents m i) := by
  constructor
  case lookup => exact hlook
  case size => 
    unfold contents
    rw [length_extent, Int.toNat_of_nonneg hsize]
  case reads =>
    intro n offset hrange
    have hbound := int32_range m (getInode i + Inode.size)
    unfold contents
    rw [slice_extent, length_extent]
    unfold fileSize at hsize ⊢
    unfold storageRead
    dsimp only
    rw [hlook, if_neg (Int.not_lt.mpr (Int.natCast_nonneg i))]
    generalize int32 m (getInode i + Inode.size) = size at hsize hbound
    by_cases hpast : (offset : Int) ≥ size
    · have hnone : min n (size.toNat - offset) = 0 := by omega
      rw [if_pos hpast, hnone]
      rfl
    · have hlen :
          (if toSize (offset + n) ≥ toSize size then toSize (size - offset) else (n : Int)) =
          (min n (size.toNat - offset) : Nat) := by
        unfold toSize
        split <;> omega
      have hfits : (min n (size.toNat - offset) : Nat) < (2 ^ 31 : Int) := by omega
      rw [if_neg hpast, hlen, Int.toNat_natCast, toInt, bmod_of_lt (Int.natCast_nonneg _) hfits]
      generalize min n (size.toNat - offset) = count
      simp [extent, Int.add_assoc, List.map_eq_flatMap, List.flatMap_assoc]

theorem ArrayStep.step (h : ArrayStep m path i op) (hi : i < 256) (hlook : treeLookup m path = i)
    (hok : 0 ≤ (op.step path m).2) :
    treeLookup (op.step path m).1 path = i ∧ 0 ≤ fileSize (op.step path m).1 i ∧
      contents (op.step path m).1 i = op.apply (contents m i) := by
  have hnonneg := h.bounds.1
  cases op with
  | write buf offset junk =>
    simp only [FileOp.step, FileOp.apply, FileOp.size] at hok hnonneg ⊢
    obtain ⟨hlook', hsize, hcontents⟩ := h.write hi hlook hok
    rw [← hsize] at hnonneg
    exact ⟨hlook', hnonneg, hcontents⟩
  | truncate len junk =>
    simp only [FileOp.step, FileOp.apply, FileOp.size] at hok hnonneg ⊢
    obtain ⟨hlook', hsize, hcontents⟩ := h.truncate hi hlook hok
    rw [← hsize] at hnonneg
    exact ⟨hlook', hnonneg, hcontents⟩

theorem run_contents {ops : List FileOp} (hi : i < 256) (hlook : treeLookup m path = i)
    (hsize : 0 ≤ fileSize m i) (hok : AlongFile (fun m op => 0 ≤ (op.step path m).2) path m ops)
    (h : AlongFile (fun m op => ArrayStep m path i op) path m ops) :
    treeLookup (runFileOps path m ops) path = i ∧ 0 ≤ fileSize (runFileOps path m ops) i ∧
      contents (runFileOps path m ops) i = ops.foldl FileOp.apply (contents m i) := by
  induction ops generalizing m with
  | nil =>
    rw [runFileOps_nil, List.foldl_nil]
    exact ⟨hlook, hsize, rfl⟩
  | cons op ops ih =>
    obtain ⟨hlook', hsize', hcontents⟩ := h.1.step hi hlook hok.1
    rw [runFileOps_cons, List.foldl_cons, ← hcontents]
    exact ih hlook' hsize' hok.2 h.2

/-- A file that grows to two pages at most is given no page of entries. -/
theorem resizeWrites_direct {size : Int} (h0 : 0 ≤ size) (hsmall : size ≤ 8192)
    (hgrow : fileSize m i ≤ size) : ∀ x, x ∉ resizeWrites m i size := by
  rintro x (⟨hless, -⟩ | ⟨-, -, hbig, -⟩)
  · omega
  · rw [toInt, bmod_of_lt h0 (by omega)] at hbig
    omega

end

/-- Along the calls that meet the condition. -/
theorem file_acts_as_array (m : Image) (path : Path) (ops : List FileOp)
    (h : ∀ i : Nat, treeLookup m path = i →
      0 ≤ fileSize m i ∧
      AlongFile (fun m op => ArrayStep m path i op) path m ops) : ActsAsArray m path ops := by
  intro i hlook hfile hok
  have hi := hfile.2.1
  obtain ⟨hsize, hsteps⟩ := h i hlook
  obtain ⟨hlook', hsize', hcontents⟩ := run_contents (by omega) hlook hsize hok hsteps
  rw [← hcontents]
  exact readsAs_contents hlook' hsize'

def firstPath : Path := Path.root.join [0x61]

def firstFile : Image := runStoreOps (storageInit fun _ => 0) (threeFiles.take 1)

/-- The second write leaves one byte of three. -/
theorem overwrite_cuts_file :
    ¬ ∀ (m : Image) (prior : List StoreOp) (path : Path) (ops : List FileOp),
    ActsAsArray (runStoreOps (storageInit m) prior) path ops := by
  intro h
  have hfacts : treeLookup firstFile firstPath = 1 ∧
      IsFile firstFile 1 ∧
      0 ≤ ((FileOp.write [0x61, 0x62, 0x63] 0 0).step firstPath firstFile).2 ∧
      0 ≤ ((FileOp.write [0x58] 0 0).step firstPath
        ((FileOp.write [0x61, 0x62, 0x63] 0 0).step firstPath firstFile).1).2 ∧
      fileSize (runFileOps firstPath firstFile [.write [0x61, 0x62, 0x63] 0 0, .write [0x58] 0 0])
      1 = 1 := by
    decide +kernel
  obtain ⟨hlook, hfile, hfirst, hsecond, hsize⟩ := hfacts
  have hreads : ReadsAs (runFileOps firstPath firstFile _) firstPath 1 _ :=
    h (fun _ => 0) (threeFiles.take 1) firstPath [.write [0x61, 0x62, 0x63] 0 0, .write [0x58] 0 0]
      1 hlook hfile ⟨hfirst, hsecond, trivial⟩
  have hlength := hreads.size
  rw [hsize] at hlength
  simp [FileOp.apply] at hlength
  omega

/-- The path goes through the root directory only, and that has page 2. -/
def InRoot (m : Image) (path : Path) : Prop :=
  SoundDir m 0 ∧ ptr m 0 0 = 2 ∧ WalkWith m (fun cur _ => cur = 0) 0 (sSplit path.text slash) ∧
    bit m getPagesBitmap 0 = true ∧ bit m getPagesBitmap 1 = true

instance (m : Image) (path : Path) : Decidable (InRoot m path) :=
  inferInstanceAs (Decidable (_ ∧ _ ∧ _ ∧ _ ∧ _))

/-- The first file has the page before that of the root directory. -/
theorem firstFile_step {m : Image} {path : Path} {op : FileOp} (hin : InRoot m path)
    (hsize : 0 ≤ fileSize m 1)
    (hstart : 0 ≤ op.start) (hgrow : fileSize m 1 ≤ op.size) (hsmall : op.size ≤ 4096)
    (hblank : ∀ k : Nat, fileSize m 1 ≤ k → k < op.start → m (pagesGetPage (1 : Nat) + k) = nul) :
    ArrayStep m path 1 op := by
  obtain ⟨hsound, hpage, hroot, hres⟩ := hin
  have hsize0 := Int.le_trans hstart op.start_le
  have hnone := resizeWrites_direct hsize0 (by omega) hgrow
  have hcopied : ∀ x ∈ op.copied 1, 4096 ≤ x ∧ x < 8192 := by
    intro x hx
    cases op with
    | write buf offset junk =>
      simp only [FileOp.copied, copyBytes, FileOp.size, FileOp.start, mem_span, pagesGetPage]
        at hx hsmall hstart
      omega
    | truncate len junk => exact absurd hx id
  have harea : ∀ x, x ∈ op.area m 1 → x < 32 ∨ 96 ≤ x ∧ x < 112 ∨ 4096 ≤ x ∧ x < 8192 := by
    rintro x ((⟨-, hx | hx⟩ | hx) | hx)
    · simp only [mem_span] at hx
      omega
    · simp only [mem_span, getInode_eq, Inode.size] at hx
      omega
    · exact absurd hx (hnone x)
    · exact Or.inr (Or.inr (hcopied x hx))
  constructor
  case named => decide
  case nonneg => exact ⟨hsize, hstart⟩
  case reaches =>
    rintro buf offset junk rfl
    exact hgrow
  case inside =>
    simp only [pagesGetPage, NUFS_SIZE]
    omega
  case sound =>
    have hbig : ¬ 8192 < toInt op.size := by
      rw [toInt, bmod_of_lt hsize0 (by omega)]
      omega
    exact ⟨fun hless => absurd hless (by omega), fun _ => Or.inr ⟨hres, fun h => absurd h hbig⟩⟩
  case blank => exact hblank
  case apart => exact fun x _ => hnone x
  case walk =>
    refine WalkWith.imp hroot fun cur _ hcur => ?_
    subst hcur
    refine ⟨hsound, fun x hx hx' => ?_, fun x hx hx' => ?_⟩
    · have := harea x hx'
      simp only [mem_span, getInode_eq, Inode.dptrs] at hx
      omega
    · have := harea x hx'
      rw [Int.toNat_zero, hpage] at hx
      simp only [mem_span, pagesGetPage] at hx
      omega

/-- A write to an empty file, and a growth by one byte. -/
theorem new_file_acts_as_array :
    ActsAsArray firstFile firstPath [.write [0x61, 0x62] 0 0, .truncate 3 0] := by
  apply file_acts_as_array
  intro i hlook
  have hfacts : treeLookup firstFile firstPath = 1 ∧ InRoot firstFile firstPath ∧
      fileSize firstFile 1 = 0 := by
    decide +kernel
  have hlater : InRoot ((FileOp.write [0x61, 0x62] 0 0).step firstPath firstFile).1 firstPath ∧
      fileSize ((FileOp.write [0x61, 0x62] 0 0).step firstPath firstFile).1 1 = 2 ∧
      ((FileOp.write [0x61, 0x62] 0 0).step firstPath firstFile).1
      (pagesGetPage (1 : Nat) + (2 : Nat)) = nul := by
    decide +kernel
  generalize firstFile = m at hlook hfacts hlater ⊢
  obtain ⟨hone, hin, hsize⟩ := hfacts
  obtain ⟨hin', hsize', hzero⟩ := hlater
  obtain rfl : i = 1 := by omega
  have hlow : (FileOp.write [0x61, 0x62] 0 0).start = 0 := rfl
  have hend : (FileOp.write [0x61, 0x62] 0 0).size = 2 := rfl
  have hlow' : (FileOp.truncate 3 0).start = 3 := rfl
  have hend' : (FileOp.truncate 3 0).size = 3 := rfl
  refine ⟨by omega, firstFile_step hin (by omega) (by omega) (by omega) (by omega) ?_,
    firstFile_step hin' (by omega) (by omega) (by omega) (by omega) ?_, trivial⟩
  · intro k _ hk
    omega
  · intro k hlo hhi
    obtain rfl : k = 2 := by omega
    exact hzero

end Cs3650.Nufs
