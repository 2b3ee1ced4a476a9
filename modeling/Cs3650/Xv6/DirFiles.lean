import Cs3650.Xv6.BlockRuns
import Cs3650.Xv6.Dirs

/-!
# Directories in blocks (hw09/starter-hw09/xv6: fs.c, fs.h)

`dirlookup` and `dirlink` on the bytes of an inode, as `readi` and `writei` give and
take them. A panic is `none`; a full disk is one. On a directory they do what they
do on the list of its entries.
-/

namespace Cs3650.Xv6.DirFiles

open Cs3650.Lib Cs3650.Xv6.Blocks Cs3650.Xv6.Dirs

/-- `sizeof(struct dirent)` -/
def DIRENT : Nat := 16

def toBytes (de : Dirent) : List Byte :=
  BitVec.ofNat 8 de.inum :: BitVec.ofNat 8 (de.inum / 256) :: de.name

def ofBytes (b : List Byte) : Dirent := ⟨(b.getD 0 0).toNat + 256 * (b.getD 1 0).toNat, b.drop 2⟩

/-- `readi(dp, (char*)&de, off, sizeof(de))`; another count panics. -/
def readDirent (sb : Superblock) (fs : Fs) (dp off : Nat) : Option (Fs × Dirent) :=
  (Blocks.readi sb fs dp off DIRENT).bind fun r =>
    if r.2.1 = DIRENT then some (r.1, ofBytes r.2.2) else none

/-- `writei(dp, (char*)&de, off, sizeof(de))`; another count panics. -/
def writeDirent (sb : Superblock) (fs : Fs) (dp : Nat) (de : Dirent) (off : Nat) : Option Fs :=
  (Blocks.writei sb fs dp (toBytes de) off).bind fun r => if r.2 = DIRENT then some r.1 else none

/-- `for(off = 0; off < dp->size; off += sizeof(de))` from `off` on, left at an entry
with `stop`. -/
def scan (sb : Superblock) (dp : Nat) (stop : Dirent → Bool) :
    Nat → Fs → Nat → Option (Fs × Nat × Option Dirent)
  | 0, fs, off => some (fs, off, none)
  | fuel + 1, fs, off =>
    if off < (fs.inode dp).size then
      (readDirent sb fs dp off).bind fun r =>
        if stop r.2 then some (r.1, off, some r.2) else scan sb dp stop fuel r.1 (off + DIRENT)
    else some (fs, off, none)

/-- The offset and the `inum` of the entry. `iget` reads and writes no block. -/
def dirlookup (sb : Superblock) (fs : Fs) (dp : Nat) (name : Chars) :
    Option (Fs × Option (Nat × Nat)) :=
  if (fs.inode dp).type ≠ T_DIR then none
  else
    (scan sb dp (fun de => de.inum != 0 && namecmp name de.name) (fs.inode dp).size fs 0).map
      fun r => (r.1, r.2.2.map fun de => (r.2.1, de.inum))

def dirlink (sb : Superblock) (fs : Fs) (dp : Nat) (name : Chars) (inum : Nat) :
    Option (Fs × Int) :=
  (dirlookup sb fs dp name).bind fun r =>
    if r.2.isSome then some (r.1, -1)
    else
      (scan sb dp (fun de => de.inum == 0) (r.1.inode dp).size r.1 0).bind fun q =>
        (writeDirent sb q.1 dp ⟨inum % 2 ^ 16, strncpy DIRSIZ name⟩ q.2.1).map fun fs => (fs, 0)

/-- What `sys_unlink` does to the directory, if the file may be removed. -/
def unlink (sb : Superblock) (fs : Fs) (dp : Nat) (name : Chars) : Option (Fs × Int) :=
  if namecmp name [0x2E] ∨ namecmp name [0x2E, 0x2E] then some (fs, -1)
  else
    (dirlookup sb fs dp name).bind fun r =>
      match r.2 with
      | none => some (r.1, -1)
      | some (off, _) =>
        (writeDirent sb r.1 dp ⟨0, List.replicate DIRSIZ 0⟩ off).map fun fs => (fs, 0)

def runOp (sb : Superblock) (fs : Fs) (dp : Nat) : DirOp → Option (Fs × Int)
  | .lookup name =>
    (dirlookup sb fs dp name).map fun r => (r.1, (r.2.map fun e => Int.ofNat e.2).getD 0)
  | .link name inum => dirlink sb fs dp name inum
  | .unlink name => unlink sb fs dp name

def runOps (sb : Superblock) (dp : Nat) (fs : Fs) : List DirOp → Option (Fs × List Int)
  | [] => some (fs, [])
  | op :: ops => do
    let (fs₁, r) ← runOp sb fs dp op
    let (fs', rs) ← runOps sb dp fs₁ ops
    some (fs', r :: rs)

/-! ## Entries as bytes -/

/-- An entry that `struct dirent` can hold. -/
structure Fits (de : Dirent) : Prop where
  inum : de.inum < 2 ^ 16
  name : de.name.length = DIRSIZ

theorem length_toBytes {de : Dirent} (h : Fits de) : (toBytes de).length = DIRENT := by
  rw [toBytes, List.length_cons, List.length_cons, h.name]
  rfl

theorem ofBytes_toBytes {de : Dirent} (h : Fits de) : ofBytes (toBytes de) = de := by
  have hinum := h.inum
  have hval : (BitVec.ofNat 8 de.inum).toNat + 256 * (BitVec.ofNat 8 (de.inum / 256)).toNat =
      de.inum := by
    rw [BitVec.toNat_ofNat, BitVec.toNat_ofNat]
    omega
  exact congrArg (Dirent.mk · de.name) hval

theorem length_strncpy (n : Nat) (t : Chars) : (strncpy n t).length = n := by
  induction n generalizing t with
  | zero => rfl
  | succ n ih =>
    rw [strncpy]
    split
    · exact List.length_replicate
    · rw [List.length_cons, ih]

theorem fits_link (name : Chars) (inum : Nat) : Fits ⟨inum % 2 ^ 16, strncpy DIRSIZ name⟩ where
  inum := Nat.mod_lt _ (by decide)
  name := length_strncpy DIRSIZ name

theorem fits_cleared : Fits ⟨0, List.replicate DIRSIZ 0⟩ where
  inum := by decide
  name := List.length_replicate

/-! ## The calls -/

variable {sb : Superblock} {fs fs' : Fs} {dp i k : Nat} {es : Dir} {de : Dirent} {name : Chars}

/-- The inode is a directory whose bytes are the entries. -/
structure OnDisk (sb : Superblock) (fs : Fs) (dp : Nat) (es : Dir) : Prop where
  ok : Ok sb fs
  lt : dp < sb.ninodes
  type : (fs.inode dp).type = T_DIR
  bytes : contents fs dp = es.flatMap toBytes
  fits : ∀ de ∈ es, Fits de

theorem OnDisk.lengths (h : OnDisk sb fs dp es) : ∀ de ∈ es, (toBytes de).length = DIRENT :=
  fun de hde => length_toBytes (h.fits de hde)

theorem OnDisk.size (h : OnDisk sb fs dp es) : (fs.inode dp).size = DIRENT * es.length := by
  rw [← contents_length, h.bytes, length_records h.lengths]

/-- The file that the blocks show. -/
def shown (h : OnDisk sb fs dp es) : Inode where
  type := .dir
  major := 0
  data := contents fs dp
  fits := by
    rw [contents_length]
    exact h.ok.max dp

theorem shown_type (h : OnDisk sb fs dp es) : (shown h).type ≠ .dev := InodeType.noConfusion

theorem readi_inside {ip : Inode} (hdev : ip.type ≠ .dev) {off n : Nat}
    (h : off + n ≤ ip.data.length) (got : Option (List Byte)) :
    Xv6.readi ip got off n = ((n : Int), slice ip.data off n) := by
  have hfits := ip.fits
  simp only [MAXBYTES] at hfits
  unfold Xv6.readi
  rw [if_neg hdev, if_neg (by omega), if_neg (by omega)]
  rfl

theorem readDirent_spec (h : OnDisk sb fs dp es) (hk : k < es.length) :
    readDirent sb fs dp (DIRENT * k) = some (fs, es[k]) := by
  have hin : DIRENT * k + DIRENT ≤ (shown h).data.length := by
    show _ ≤ (contents fs dp).length
    rw [contents_length, h.size]
    exact Nat.mul_le_mul_left DIRENT hk
  have hslice : slice (shown h).data (DIRENT * k) DIRENT = toBytes es[k] := by
    show slice (contents fs dp) (DIRENT * k) DIRENT = _
    rw [h.bytes]
    exact slice_records h.lengths hk
  rw [readDirent, readi_spec h.ok (shown_type h) rfl none, readi_inside (shown_type h) hin, hslice]
  exact congrArg (fun de => some (fs, de)) (ofBytes_toBytes (h.fits _ (List.getElem_mem hk)))

/-- The loop ends at the first entry with `stop`, or behind the last one. -/
theorem scan_spec (h : OnDisk sb fs dp es) {stop : Dirent → Bool} {fuel : Nat}
    (hk : k ≤ es.findIdx stop) (hfuel : es.length ≤ k + fuel) :
    scan sb dp stop fuel fs (DIRENT * k) =
    some (fs, DIRENT * es.findIdx stop, es[es.findIdx stop]?) := by
  have hle : es.findIdx stop ≤ es.length := List.findIdx_le_length
  induction fuel generalizing k with
  | zero =>
    obtain rfl : k = es.findIdx stop := by omega
    rw [scan, List.getElem?_eq_none (by omega)]
  | succ fuel ih =>
    rw [scan, h.size]
    by_cases hlt : k < es.length
    · rw [if_pos (Nat.mul_lt_mul_of_pos_left hlt (by decide)), readDirent_spec h hlt,
        Option.bind_some]
      by_cases hstop : stop es[k] = true
      · obtain rfl : k = es.findIdx stop := by
          by_contra hne
          have hno := List.not_of_lt_findIdx (Nat.lt_of_le_of_ne hk hne)
          rw [hstop] at hno
          cases hno
        rw [if_pos hstop, List.getElem?_eq_getElem hlt]
      · have hnext : k + 1 ≤ es.findIdx stop := by
          refine Nat.lt_of_le_of_ne hk ?_
          rintro rfl
          exact hstop List.findIdx_getElem
        rw [if_neg hstop]
        exact ih hnext (by omega)
    · obtain rfl : k = es.findIdx stop := by omega
      rw [if_neg (fun hsize => hlt (Nat.lt_of_mul_lt_mul_left hsize)),
        List.getElem?_eq_none (Nat.le_of_not_lt hlt)]

/-- All the entries are seen. -/
theorem scan_all (h : OnDisk sb fs dp es) (stop : Dirent → Bool) :
    scan sb dp stop (fs.inode dp).size fs 0 =
    some (fs, DIRENT * es.findIdx stop, es[es.findIdx stop]?) := by
  refine scan_spec (k := 0) h (Nat.zero_le _) ?_
  rw [h.size, Nat.zero_add]
  exact Nat.le_mul_of_pos_left _ (by decide)

theorem dirlookup_spec (h : OnDisk sb fs dp es) (name : Chars) : dirlookup sb fs dp name =
    some (fs, (Dirs.dirlookup es name).map fun e => (DIRENT * e.1, e.2)) := by
  rw [dirlookup, if_neg (not_not.mpr h.type), scan_all h, Option.map_some, Dirs.dirlookup,
    List.findIdx?_eq_guard_findIdx_lt]
  by_cases hlt : (es.findIdx fun de => de.inum != 0 && namecmp name de.name) < es.length
  · simp [hlt]
  · simp [Option.guard, hlt]

theorem writei_inside {ip : Inode} (hdev : ip.type ≠ .dev) {src : List Byte} {off : Nat}
    (hoff : off ≤ ip.data.length) (hmax : off + src.length ≤ MAXBYTES) :
    (Xv6.writei ip src off).1.data =
    ip.data.take off ++ src ++ ip.data.drop (off + src.length) := by
  have h32 : off + src.length < 2 ^ 32 := Nat.lt_of_le_of_lt hmax (by decide)
  unfold Xv6.writei
  rw [if_neg hdev, if_neg (by omega), dif_neg (by omega)]

theorem writei_past {ip : Inode} (hdev : ip.type ≠ .dev) {src : List Byte} {off : Nat}
    (hmax : MAXBYTES < off + src.length) : (Xv6.writei ip src off).2 = -1 := by
  unfold Xv6.writei
  rw [if_neg hdev, dif_pos hmax]
  exact apply_ite Prod.snd _ _ _ |>.trans (ite_self _)

/-- The entries with one replaced, or put behind the others. -/
def stored (es : Dir) (k : Nat) (de : Dirent) : Dir :=
  if k < es.length then es.set k de else es ++ [de]

theorem stored_bytes (hes : ∀ de ∈ es, (toBytes de).length = DIRENT) (hde : Fits de) :
    (stored es k de).flatMap toBytes =
    (es.flatMap toBytes).take (DIRENT * k) ++ toBytes de ++
      (es.flatMap toBytes).drop (DIRENT * k + (toBytes de).length) := by
  rw [stored, length_toBytes hde]
  by_cases hlt : k < es.length
  · rw [if_pos hlt, set_records hes hlt]
  · have hlen : (es.flatMap toBytes).length ≤ DIRENT * k := by
      rw [length_records hes]
      exact Nat.mul_le_mul_left DIRENT (Nat.le_of_not_lt hlt)
    rw [if_neg hlt, List.flatMap_append, List.flatMap_singleton, List.take_of_length_le hlen,
      List.drop_eq_nil_of_le (Nat.le_add_right_of_le hlen), List.append_nil]

theorem stored_fits (hes : ∀ de ∈ es, Fits de) (hde : Fits de) :
    ∀ de' ∈ stored es k de, Fits de' := by
  intro de' hmem
  unfold stored at hmem
  split at hmem
  · rcases List.mem_or_eq_of_mem_set hmem with hmem | rfl
    · exact hes de' hmem
    · exact hde
  · rcases List.mem_append.mp hmem with hmem | hmem
    · exact hes de' hmem
    · rwa [List.mem_singleton.mp hmem]

theorem writeDirent_spec (h : OnDisk sb fs dp es) (hde : Fits de) (hk : k ≤ es.length)
    (hrun : writeDirent sb fs dp de (DIRENT * k) = some fs') :
    OnDisk sb fs' dp (stored es k de) ∧ (k < es.length ∨ es.length < MAXENTRIES) ∧
      ∀ i ≠ dp, Untouched fs fs' i := by
  obtain ⟨⟨fs₁, r⟩, hwrite, hcount⟩ := Option.bind_eq_some_iff.mp hrun
  dsimp only at hcount
  have htype : (fs.inode dp).type ≠ 0 := by
    rw [h.type]
    decide
  obtain ⟨hok, hother, htype', hcontents, hr⟩ :=
    writei_spec h.ok h.lt htype (shown_type h) rfl hwrite
  have hlen := length_toBytes hde
  have hmax : DIRENT * k + (toBytes de).length ≤ MAXBYTES := by
    by_contra hpast
    have hfailed := writei_past (shown_type h) (Nat.lt_of_not_le hpast)
    rw [show r = -1 from hr.trans hfailed, if_neg (by decide)] at hcount
    cases hcount
  obtain rfl : fs₁ = fs' := by
    split at hcount
    · exact Option.some.inj hcount
    · cases hcount
  have hoff : DIRENT * k ≤ (shown h).data.length := by
    show _ ≤ (contents fs dp).length
    rw [contents_length, h.size]
    exact Nat.mul_le_mul_left DIRENT hk
  refine ⟨⟨hok, h.lt, htype'.trans h.type, ?_, stored_fits h.fits hde⟩, ?_, hother⟩
  · rw [stored_bytes h.lengths hde, ← h.bytes]
    exact hcontents.trans (writei_inside (shown_type h) hoff hmax)
  · rw [hlen] at hmax
    simp only [DIRENT, MAXBYTES, MAXENTRIES] at hmax ⊢
    omega

/-- The call on the blocks is the call on the entries. -/
structure Simulates (sb : Superblock) (fs : Fs) (dp : Nat) (r : Option (Dir × Int))
    (q : Fs × Int) : Prop where
  entries : ∃ es, r = some (es, q.2) ∧ OnDisk sb q.1 dp es
  others : ∀ i ≠ dp, Untouched fs q.1 i

theorem dirlink_spec (h : OnDisk sb fs dp es) {inum : Nat} {q : Fs × Int}
    (hrun : dirlink sb fs dp name inum = some q) :
    Simulates sb fs dp (Dirs.dirlink es name inum) q := by
  unfold dirlink at hrun
  rw [dirlookup_spec h, Option.bind_some] at hrun
  dsimp only at hrun
  rw [Option.isSome_map] at hrun
  unfold Dirs.dirlink
  split at hrun
  · next hsome =>
    cases hrun
    rw [if_pos hsome]
    exact ⟨⟨es, rfl, h⟩, fun i _ => Untouched.refl fs i⟩
  · next hnone =>
    rw [if_neg hnone]
    rw [scan_all h, Option.bind_some] at hrun
    obtain ⟨fs', hwrite, rfl⟩ := Option.map_eq_some_iff.mp hrun
    obtain ⟨hdisk, hroom, hother⟩ :=
      writeDirent_spec h (fits_link name inum) List.findIdx_le_length hwrite
    refine ⟨⟨_, ?_, hdisk⟩, hother⟩
    dsimp only [stored]
    split
    · rfl
    · next hfull => rw [if_pos (hroom.resolve_left hfull)]

theorem unlink_spec (h : OnDisk sb fs dp es) {q : Fs × Int}
    (hrun : unlink sb fs dp name = some q) :
    Simulates sb fs dp (some (Dirs.unlink es name)) q := by
  unfold unlink at hrun
  unfold Dirs.unlink
  split at hrun
  · next hfixed =>
    cases hrun
    rw [if_pos hfixed]
    exact ⟨⟨es, rfl, h⟩, fun i _ => Untouched.refl fs i⟩
  · next hfixed =>
    rw [if_neg hfixed]
    rw [dirlookup_spec h, Option.bind_some] at hrun
    cases hlook : Dirs.dirlookup es name with
    | none =>
      rw [hlook] at hrun
      cases hrun
      exact ⟨⟨es, rfl, h⟩, fun i _ => Untouched.refl fs i⟩
    | some e =>
      obtain ⟨off, inum⟩ := e
      rw [hlook] at hrun
      obtain ⟨fs', hwrite, rfl⟩ := Option.map_eq_some_iff.mp hrun
      have hlt := (dirlookup_some hlook).1
      obtain ⟨hdisk, -, hother⟩ := writeDirent_spec h fits_cleared (Nat.le_of_lt hlt) hwrite
      rw [stored, if_pos hlt] at hdisk
      exact ⟨⟨_, rfl, hdisk⟩, hother⟩

theorem runOp_spec (h : OnDisk sb fs dp es) {op : DirOp} {q : Fs × Int}
    (hrun : runOp sb fs dp op = some q) : Simulates sb fs dp (op.run es) q := by
  cases op with
  | lookup name =>
    rw [runOp, dirlookup_spec h, Option.map_some] at hrun
    cases hrun
    refine ⟨⟨es, ?_, h⟩, fun i _ => Untouched.refl fs i⟩
    rw [DirOp.run, Option.map_map]
    rfl
  | link name inum => exact dirlink_spec h hrun
  | unlink name => exact unlink_spec h hrun

/-- Every run of the calls on the blocks gives the answers of the calls on the
entries, and leaves the bytes of the entries and every other file as it was. -/
theorem runOps_spec (h : OnDisk sb fs dp es) {ops : List DirOp} {q : Fs × List Int}
    (hrun : runOps sb dp fs ops = some q) :
    (∃ es', Dirs.runs es ops = some (es', q.2) ∧ OnDisk sb q.1 dp es') ∧
      ∀ i ≠ dp, Untouched fs q.1 i := by
  induction ops generalizing fs es q with
  | nil =>
    cases hrun
    exact ⟨⟨es, rfl, h⟩, fun i _ => Untouched.refl fs i⟩
  | cons op ops ih =>
    obtain ⟨q₁, hop, hrun₁⟩ := Option.bind_eq_some_iff.mp hrun
    obtain ⟨q₂, hops, heq⟩ := Option.bind_eq_some_iff.mp hrun₁
    obtain ⟨⟨es₁, hes₁, h₁⟩, hother⟩ := runOp_spec h hop
    obtain ⟨⟨es', hes', h'⟩, hothers⟩ := ih h₁ hops
    obtain rfl : (q₂.1, q₁.2 :: q₂.2) = q := Option.some.inj heq
    exact ⟨⟨es', by simp [Dirs.runs, hes₁, hes'], h'⟩,
      fun i hi => (hother i hi).trans (hothers i hi)⟩

/-- A new inode is a directory without entries. -/
theorem onDisk_new (h : Ok sb fs) (hrun : ialloc sb fs T_DIR = some (fs', dp)) :
    OnDisk sb fs' dp [] := by
  obtain ⟨hlt, -, hok, -, htype, hempty⟩ := ialloc_spec h (by decide) hrun
  exact ⟨hok, hlt, htype, hempty, fun de hde => absurd hde List.not_mem_nil⟩

/-- A directory in the blocks answers as the finite map of its names. -/
theorem runOps_names (h : OnDisk sb fs dp []) {ops : List DirOp} (hok : ∀ op ∈ ops, op.Ok)
    {q : Fs × List Int} (hrun : runOps sb dp fs ops = some q) :
    ∃ f es, specs ∅ ops = some (f, q.2) ∧ Dirs.Holds es f ∧ OnDisk sb q.1 dp es := by
  obtain ⟨⟨es, hruns, hdisk⟩, -⟩ := runOps_spec h hrun
  obtain ⟨f, hspec, hholds, -⟩ := holds_nil.runs_some hok hruns
  exact ⟨f, es, hspec, hholds, hdisk⟩

/-- A name is linked, found, cleared and not found. -/
example : ((ialloc mkfsSuperblock (blank mkfsSuperblock) T_DIR).bind fun r =>
    runOps mkfsSuperblock r.2 r.1
      [.link [0x61] 7, .lookup [0x61], .unlink [0x61], .lookup [0x61]]).map Prod.snd =
    some [0, 7, 0, 0] := by
  decide +kernel

end Cs3650.Xv6.DirFiles
