import Cs3650.Nufs.DirectoryMap
import Cs3650.Nufs.Rename
import Cs3650.Nufs.StoreRuns

/-!
# New directories

`directory_init` takes the page of a new directory as it is. What a file or a
directory has left there is read as its entries.
-/

namespace Cs3650.Nufs

open Cs3650.Lib

/-- The page has no entry. -/
def BlankPage (m : Image) (p : Nat) : Prop := ∀ k < 64, m (direntName (pagesGetPage p) k) = nul

/-- When the first free entry is taken, the empty name is found in the next one
with the same number. -/
def FreeAgain (m : Image) (start : Int) : Prop :=
  ∃ k < 64, ∃ j < 64, k < j ∧ m (direntName start k) = nul ∧ m (direntName start j) = nul ∧
    (∀ x < j, x ≠ k → m (direntName start x) ≠ nul) ∧
      int32 m (direntInum start j) = int32 m (direntInum start k)

/-- The path can lead to a new directory: there are an inode and a page to take,
and the parent, where the name is not taken, is found as well with the new entry. -/
structure NewDirRoom (m : Image) (path : Path) : Prop where
  page : ∃ p < 256, 2 ≤ p ∧ firstClear m getPagesBitmap PAGE_COUNT = some p
  inode : ∃ i < 256, bit m getInodeBitmap i = false
  plain : EndsPlain path
  short : path.basename.length ≤ 59
  parent : SoundDir m (treeLookup m path.dirname)
  used : bit m getPagesBitmap (ptr m (treeLookup m path.dirname).toNat 0).toNat = true
  absent : findName m (direntBase m (getInode (treeLookup m path.dirname))) path.basename = none
  walk : WalkWith m (fun cur base => SoundDir m cur ∧
    (base = [] → ptr m cur.toNat 0 = ptr m (treeLookup m path.dirname).toNat 0 →
      FreeAgain m (pagesGetPage (ptr m cur.toNat 0)))) 0 (sSplit path.dirname.text slash)

/-- The page to take has no entry. -/
def NewPageBlank (m : Image) : Prop :=
  ∀ p < 256, firstClear m getPagesBitmap PAGE_COUNT = some p → BlankPage m p

/-- A directory that was made is empty. -/
def NewDirEmpty (m : Image) (path : Path) (mode : Int) : Prop :=
  (storageMknod m path mode).2 = 0 → storageList (storageMknod m path mode).1 path = [] ∧
    ∀ name, name ≠ [] → nul ∉ name →
      directoryLookup (storageMknod m path mode).1 (getInode (directoryInit m).2) name = -ENOENT

/-! ## Entries of a page -/

section

variable {m m' : Image} {d p : Nat}

theorem directoryList_nil (hp : ptr m d 0 = p) : directoryList m (getInode d) = [] ↔
    BlankPage m p := by
  have hbase : direntBase m (getInode d) = pagesGetPage p := by rw [direntBase_eq, hp]
  rw [List.eq_nil_iff_forall_not_mem]
  constructor
  · intro h k hk
    by_contra hused
    exact h _ (mem_directoryList.mpr ⟨k, hk, by rwa [hbase], rfl⟩)
  · intro h name hmem
    obtain ⟨k, hk, hused, -⟩ := mem_directoryList.mp hmem
    rw [hbase] at hused
    exact hused (h k hk)

theorem BlankPage.lookup (h : BlankPage m p) (hp : ptr m d 0 = p) {name : Str} (hne : name ≠ [])
    (hnul : nul ∉ name) : directoryLookup m (getInode d) name = -ENOENT := by
  apply directoryLookup_none
  rw [direntBase_eq, hp]
  cases hfind : findName m (pagesGetPage p) name with
  | none => rfl
  | some k =>
    obtain ⟨hk, hsame, -⟩ := findName_some hfind
    exact absurd (h k hk) (streq_used hne hnul hsame)

theorem findName_nil {start : Int} {k : Nat} (hk : k < 64) (hfree : m (direntName start k) = nul)
    (hless : ∀ x < k, m (direntName start x) ≠ nul) : findName m start [] = some k := by
  unfold findName
  refine List.find?_range_eq_some.mpr ⟨by simp [streq, hfree], List.mem_range.mpr hk,
    fun x hx => ?_⟩
  simp [streq, hless x hx]

theorem FreeAgain.lookup {name : Str} {i k : Nat} (h : FreeAgain m (pagesGetPage p)) (h2 : 2 ≤ p)
    (hp : ptr m d 0 = p) (hd : d < 256) (hi : i < 256) (hput : Put m m' p name i k)
    (hne : name ≠ [])
    (hnul : nul ∉ name) :
    directoryLookup m' (getInode d) [] = directoryLookup m (getInode d) [] := by
  obtain ⟨k₀, hk₀, j, hj, hkj, hfree, hfreej, hbetween, hinum⟩ := h
  have hfirst : k₀ = k := by
    by_contra hdiff
    rcases Nat.lt_or_gt_of_ne hdiff with hlt | hgt
    · exact hput.first k₀ hlt hfree
    · exact hbetween k (by omega) (fun heq => hdiff heq.symm) hput.free
  subst hfirst
  have hjk : ¬(p = p ∧ j = k₀) := by omega
  have hbelow := header_below hi
  have hbyte : ∀ x < 64, x ≠ k₀ →
      m' (direntName (pagesGetPage p) x) = m (direntName (pagesGetPage p) x) := by
    intro x hx hxk
    have hsame :=
      byte_entry hput.changed hbelow h2 hput.lt hx (fun hc => hxk hc.2) (i := 0) (by decide)
    simpa using hsame
  have hbase : direntBase m (getInode d) = pagesGetPage p := by rw [direntBase_eq, hp]
  have hbase' := (direntBase_header h2 hput.changed hd).trans hbase
  have hfind : findName m (pagesGetPage p) [] = some k₀ := findName_nil hk₀ hfree hput.first
  have hfind' : findName m' (pagesGetPage p) [] = some j := by
    apply findName_nil hj
    · rw [hbyte j hj (by omega)]
      exact hfreej
    · intro x hx
      by_cases hxk : x = k₀
      · rw [hxk]
        exact hput.used hne hnul
      · rw [hbyte x (by omega) hxk]
        exact hbetween x hx hxk
  rw [directoryLookup_some (by rw [hbase', hfind']), directoryLookup_some (by rw [hbase, hfind]),
    hbase, hbase', inum_entry hput.changed hbelow h2 hput.lt hj hjk, hinum]

theorem DirPage.lookup_put {P i k : Nat} {name base : Str} (h : DirPage m d p) (h2 : 2 ≤ p)
    (hP : 2 ≤ P)
    (hd : d < 256) (hi : i < 256) (hput : Put m m' P name i k) (hne : name ≠ []) (hnul : nul ∉ name)
    (hlen : name.length ≤ 59) (hbasenul : nul ∉ base) (hother : p = P → base ≠ name)
    (hempty : p = P → base = [] → FreeAgain m (pagesGetPage P)) :
    directoryLookup m' (getInode d) base = directoryLookup m (getInode d) base := by
  by_cases hpage : p = P
  · subst hpage
    by_cases hnil : base = []
    · subst hnil
      exact (hempty rfl rfl).lookup h2 h.page hd hi hput hne hnul
    · exact h.put_other h2 hd hi hput hne hnul hnil hbasenul (by
        rw [List.take_of_length_le hlen]
        exact hother rfl)
  · refine directoryLookup_page h.page h.closed (ptr_header hP hput.changed hd (by decide))
      (fun x hx => ?_) hbasenul
    apply hput.changed
    rintro (hslot | hhead)
    · simp only [slot, direntName, pagesGetPage, mem_span] at hx hslot
      have := hput.lt
      omega
    · exact below_page h2 (header_below hi) x hx hhead

end

/-! ## The call -/

section

variable {m m₁ : Image} (habove : ∀ x, 8192 ≤ x → m₁ x = m x)

include habove

theorem FreeAgain.above {start : Int} (hstart : 8192 ≤ start) (h : FreeAgain m start) :
    FreeAgain m₁ start := by
  obtain ⟨k, hk, j, hj, hkj, hfree, hfreej, hbetween, hinum⟩ := h
  have hbyte : ∀ x, m₁ (direntName start x) = m (direntName start x) := by
    intro x
    apply habove
    simp only [direntName]
    omega
  refine ⟨k, hk, j, hj, hkj, (hbyte k).trans hfree, (hbyte j).trans hfreej, fun x hx hxk => ?_, ?_⟩
  · rw [hbyte x]
    exact hbetween x hx hxk
  · rw [direntInum_above habove hstart, direntInum_above habove hstart, hinum]

theorem BlankPage.above {p : Nat} (h2 : 2 ≤ p) : BlankPage m₁ p ↔ BlankPage m p := by
  have hbyte : ∀ k :
      Nat, m₁ (direntName (pagesGetPage p) k) = m (direntName (pagesGetPage p) k) := by
    intro k
    apply habove
    simp only [direntName, pagesGetPage]
    omega
  unfold BlankPage
  simp only [hbyte]

theorem SoundDir.above (hptr : ∀ d < 256, Allocated m d → ptr m₁ d 0 = ptr m d 0) {cur : Int}
    (h : SoundDir m cur) : ∃ d p :
    Nat, cur = d ∧ d < 256 ∧ 2 ≤ p ∧ p < 256 ∧ ptr m d 0 = p ∧ DirPage m d p ∧
      DirPage m₁ d p ∧ ∀ base, directoryLookup m₁ (getInode d) base =
      directoryLookup m (getInode d) base := by
  obtain ⟨d, p, rfl, hd, hal, h2, hp, hpage⟩ := h.1.nat
  have hclosed := h.2
  rw [Int.toNat_natCast, hpage] at hclosed
  have hsame := hptr d hd hal
  refine ⟨d, p, rfl, hd, h2, hp, hpage, ⟨hpage, hclosed⟩,
    ⟨hsame.trans hpage, fun k hk => ?_⟩, fun base =>
    directoryLookup_above habove hpage h2 hsame base⟩
  rw [habove]
  · exact hclosed k hk
  · simp only [direntName, pagesGetPage]
    omega

end

theorem directoryInit_first {m : Image} {i₀ p : Nat} (hi₀ : i₀ < 256)
    (hfree : bit m getInodeBitmap i₀ = false)
    (hp : p < 256) (hpos : 0 < p) (hfirst : firstClear m getPagesBitmap PAGE_COUNT = some p) :
    ∃ m₁, ∃ i : Nat, i < 256 ∧ bit m getInodeBitmap i = false ∧ directoryInit m = (m₁, (i : Int)) ∧
      CreatedDir m m₁ i p := by
  obtain ⟨-, hclear, hless⟩ := firstClear_some hfirst
  obtain ⟨m₁, i, q, hi, hiclear, -, -, hqclear, hqless, hinit, hcreated⟩ :=
    directoryInit_cases hi₀ hfree hp hclear (hless 0 hpos)
  have hq : q = p := by
    rcases Nat.lt_trichotomy q p with hlt | heq | hgt
    · rw [hless q hlt] at hqclear
      cases hqclear
    · exact heq
    · rw [hqless p hgt] at hclear
      cases hclear
  exact ⟨m₁, i, hi, hiclear, hinit, hq ▸ hcreated⟩

section

variable {m m₁ m' : Image} {path : Path} {d P i k : Nat} (h : NewDirRoom m path)
  (hparent : treeLookup m path.dirname = d) (hP : ptr m d 0 = P)
  (habove : ∀ x, 8192 ≤ x → m₁ x = m x) (hptr : ∀ d < 256, Allocated m d → ptr m₁ d 0 = ptr m d 0)

include hparent

theorem parent_found : 0 ≤ lookupFrom m 0 (sSplit path.dirname.text slash) := by
  have hnonneg : 0 ≤ treeLookup m path.dirname := by
    rw [hparent]
    exact Int.natCast_nonneg d
  exact hnonneg

include h habove hptr

theorem NewDirRoom.parent_made : treeLookup m₁ path.dirname = d := by
  rw [← hparent]
  refine WalkWith.lookup_same h.walk (parent_found hparent) path.dirname.component_noNul
    fun cur base hok _ _ => ?_
  obtain ⟨d', -, rfl, -, -, -, -, -, -, hlook⟩ := hok.1.above habove hptr
  exact hlook base

include hP

theorem NewDirRoom.parent_put (h2 : 2 ≤ P) (hi : i < 256) (hput : Put m₁ m' P path.basename i k) :
    treeLookup m' path.dirname = d := by
  have hwalk := h.walk
  have habsent := h.absent
  rw [hparent, Int.toNat_natCast, hP] at hwalk
  rw [hparent, direntBase_eq, hP] at habsent
  obtain ⟨hne, hnul, -⟩ := basename_cases path
  rw [← hparent]
  refine WalkWith.lookup_same hwalk (parent_found hparent) path.dirname.component_noNul
    fun cur base hok hbasenul hnext => ?_
  obtain ⟨d', q, rfl, hd', hq, -, hpage, hold, hnew, hlook⟩ := hok.1.above habove hptr
  rw [← hlook base]
  refine hnew.lookup_put hq h2 hd' hi hput hne hnul h.short hbasenul ?_ ?_
  · -- the new name was in no entry of the page
    rintro rfl rfl
    rw [directoryLookup_none (by rw [hold.base]; exact habsent)] at hnext
    exact absurd hnext (by decide)
  · rintro rfl hnil
    have hagain := hok.2 hnil (by rw [Int.toNat_natCast]; exact hpage)
    rw [Int.toNat_natCast, hpage] at hagain
    refine hagain.above habove ?_
    unfold pagesGetPage
    omega

end

theorem NewDirRoom.made {m : Image} {path : Path} {mode : Int} (h : NewDirRoom m path)
    (hmode : hasDirBit mode = true) (hok : (storageMknod m path mode).2 = 0) :
    ∃ i p : Nat, (directoryInit m).2 = i ∧ p < 256 ∧
    firstClear m getPagesBitmap PAGE_COUNT = some p ∧
      treeLookup (storageMknod m path mode).1 path = i ∧ ptr (storageMknod m path mode).1 i 0 = p ∧
        (BlankPage (storageMknod m path mode).1 p ↔ BlankPage m p) := by
  obtain ⟨p, hp, h2, hfirst⟩ := h.page
  obtain ⟨i₀, hi₀, hfree⟩ := h.inode
  obtain ⟨m₁, i, hi, hclear, hinit, hcreated⟩ := directoryInit_first hi₀ hfree hp (by omega) hfirst
  have habove := inode_above hi hcreated.changed
  have hptr := inode_others hi hcreated.changed hclear
  obtain ⟨d, P, hdeq, hd, hP, -, hPptr, -, hpage, -⟩ := h.parent.above habove hptr
  obtain ⟨hne, hnul, -⟩ := basename_cases path
  have habsent := h.absent
  have hused := h.used
  rw [hdeq, direntBase_eq, hPptr] at habsent
  rw [hdeq, Int.toNat_natCast, hPptr, Int.toNat_natCast] at hused
  have hmissing : ¬ treeLookup m path ≠ -ENOENT := by
    intro hthere
    have hrefused : storageMknod m path mode = (m, -EEXIST) := if_pos hthere
    rw [snd_of_eq hrefused] at hok
    exact absurd hok (by decide)
  have hmknod : storageMknod m path mode = directoryPut m₁ (getInode d) path.basename i := by
    unfold storageMknod
    rw [if_neg hmissing, if_pos hmode, hinit]
    dsimp only
    rw [h.parent_made hdeq habove hptr]
  rcases directoryPut_cases path.basename hpage.base hP hi with ⟨hrefused, -⟩
    | ⟨-, -, m', k, hmade, hput⟩
  · rw [hmknod, snd_of_eq hrefused] at hok
    exact absurd hok (by decide)
  rw [fst_of_eq (hmknod.trans hmade), hinit]
  have hnone : ∀ j < 64, ∀ v, entryAt m₁ P j ≠ some (path.basename, v) := by
    rcases hpage.find_cases hne hnul with ⟨-, hnone⟩ | ⟨k, v, hfound, -⟩
    · exact hnone
    · rw [findName_above habove (by unfold pagesGetPage; omega), habsent] at hfound
      cases hfound
  have hdir := h.parent_put hdeq hPptr habove hptr hP hi hput
  have hpages : p ≠ P := by
    rintro rfl
    rw [(firstClear_some hfirst).2.1] at hused
    cases hused
  refine ⟨i, p, rfl, hp, hfirst, ?_, ?_, ?_⟩
  · rw [treeLookup_plain h.plain (by rw [hdir]; exact Int.natCast_nonneg d), hdir]
    exact hpage.put_found hP hd hi hput hne hnul h.short hnone
  · rw [ptr_header hP hput.changed hi (by decide), hcreated.ptrs 0 (by decide), if_pos rfl]
  · have hbyte : ∀ x < 64, m' (direntName (pagesGetPage p) x) =
        m₁ (direntName (pagesGetPage p) x) := by
      intro x hx
      have hsame :=
        byte_entry hput.changed (header_below hi) h2 hput.lt hx (fun hc => hpages hc.1)
          (i := 0) (by decide)
      simpa using hsame
    rw [← BlankPage.above habove h2]
    exact forall₂_congr fun x hx => by rw [hbyte x hx]

theorem NewDirRoom.empty_iff {m : Image} {path : Path} {mode : Int} (h : NewDirRoom m path)
    (hmode : hasDirBit mode = true) (hok : (storageMknod m path mode).2 = 0) :
    NewDirEmpty m path mode ↔ NewPageBlank m := by
  obtain ⟨i, p, hinum, hp, hfirst, hleads, hpage, hblank⟩ := h.made hmode hok
  unfold NewDirEmpty storageList
  rw [hinum, hleads]
  constructor
  · intro hempty q _ hq
    obtain rfl : p = q := Option.some.inj (hfirst.symm.trans hq)
    exact hblank.mp ((directoryList_nil hpage).mp (hempty hok).1)
  · intro hnew _
    have hclear := hblank.mpr (hnew p hp hfirst)
    exact ⟨(directoryList_nil hpage).mpr hclear, fun name hne hnul => hclear.lookup hpage hne hnul⟩

/-- In every state that the operations reach. -/
theorem run_new_directory (m : Image) (ops : List StoreOp) {path : Path} {mode : Int}
    (hmode : hasDirBit mode = true) (hroom : NewDirRoom (runStoreOps (storageInit m) ops) path) :
    (NewPageBlank (runStoreOps (storageInit m) ops) →
      NewDirEmpty (runStoreOps (storageInit m) ops) path mode) ∧
    ((storageMknod (runStoreOps (storageInit m) ops) path mode).2 = 0 →
      NewDirEmpty (runStoreOps (storageInit m) ops) path mode →
      NewPageBlank (runStoreOps (storageInit m) ops)) :=
  ⟨fun hblank hok => (hroom.empty_iff hmode hok).mpr hblank hok, fun hok =>
    (hroom.empty_iff hmode hok).mp⟩

theorem root_room : NewDirRoom (storageInit fun _ => 0) ⟨[slash, 0x64], rfl, by decide⟩ where
  page := ⟨3, by decide, by decide, by decide +kernel⟩
  inode := ⟨1, by decide, by decide +kernel⟩
  plain := by
    unfold EndsPlain
    decide +kernel
  short := by decide
  parent := by decide +kernel
  used := by decide +kernel
  absent := by decide +kernel
  walk := ⟨⟨by decide +kernel, fun _ _ =>
    ⟨0, by decide, 1, by decide, by decide, by decide +kernel, by decide +kernel,
    by decide +kernel, by decide +kernel⟩⟩, trivial⟩

theorem first_directory_empty :
    NewDirEmpty (storageInit fun _ => 0) ⟨[slash, 0x64], rfl, by decide⟩ 0o40755 := by
  refine (run_new_directory (fun _ => 0) [] (by decide) root_room).1 fun p _ hp => ?_
  have hfirst : firstClear (storageInit fun _ => 0) getPagesBitmap PAGE_COUNT = some 3 := by
    decide +kernel
  obtain rfl : 3 = p := Option.some.inj (hfirst.symm.trans hp)
  unfold BlankPage
  decide +kernel

/-- The page of a directory that was removed with an entry in it. -/
theorem recycled_page_listed : ¬ ∀ (m : Image) (ops : List StoreOp) (path : Path) (mode : Int),
    hasDirBit mode = true → NewDirEmpty (runStoreOps (storageInit m) ops) path mode := by
  intro h
  generalize hops : [StoreOp.mknod ⟨[slash, 0x64], rfl, by decide⟩ 0o40755,
    .mknod ⟨[slash, 0x64, slash, 0x61], rfl, by decide⟩ 0o100644,
    .unlink ⟨[slash, 0x64], rfl, by decide⟩] = ops
  generalize hpath : (⟨[slash, 0x65], rfl, by decide⟩ : Path) = path
  have hfacts : (storageMknod (runStoreOps (storageInit fun _ => 0) ops) path 0o40755).2 = 0 ∧
      [0x61] ∈ storageList
      (storageMknod (runStoreOps (storageInit fun _ => 0) ops) path 0o40755).1 path := by
    subst hops hpath
    decide +kernel
  obtain ⟨hmade, hlisted⟩ := hfacts
  rw [(h (fun _ => 0) ops path 0o40755 (by decide) hmade).1] at hlisted
  cases hlisted

end Cs3650.Nufs
