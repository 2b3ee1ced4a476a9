import Cs3650.Lib.SlotTable
import Cs3650.Nufs.NamespaceRuns

/-!
# A directory is a finite map from names to inode numbers

The page of a directory is a table of 64 slots. Looking up, listing, putting and
deleting are what a table of slots does with them, as long as every name ends
within its entry.
-/

namespace Cs3650.Nufs

open Cs3650.Lib

/-- The name and the inode number in entry `k` of page `p`. -/
def entryAt (m : Image) (p k : Nat) : Option (Str × Int) :=
  if m (direntName (pagesGetPage p) k) = nul then none
  else some (nameAt m p k, int32 m (direntInum (pagesGetPage p) k))

/-- Page `p` is the first page of inode `d`, and names end within their entries. -/
structure DirPage (m : Image) (d p : Nat) : Prop where
  page : ptr m d 0 = p
  closed : ∀ k < 64, m (direntName (pagesGetPage p) k + (59 : Nat)) = nul

section

variable {m : Image} {d p : Nat}

theorem DirPage.base (h : DirPage m d p) : direntBase m (getInode d) = pagesGetPage p := by
  rw [direntBase_eq, h.page]

theorem entryAt_none {k : Nat} : entryAt m p k = none ↔
    m (direntName (pagesGetPage p) k) = nul := by
  unfold entryAt
  by_cases h : m (direntName (pagesGetPage p) k) = nul
  · simp [h]
  · simp [h]

theorem entryAt_some {k : Nat} {name : Str} {v : Int} : entryAt m p k = some (name, v) ↔
    m (direntName (pagesGetPage p) k) ≠ nul ∧ nameAt m p k = name ∧
      int32 m (direntInum (pagesGetPage p) k) = v := by
  unfold entryAt
  by_cases h : m (direntName (pagesGetPage p) k) = nul
  · simp [h]
  · simp [h]

theorem DirPage.entryName (h : DirPage m d p) {k : Nat} (hk : k < 64) {name : Str} {v : Int}
    (he : entryAt m p k = some (name, v)) : EntryName name := by
  obtain ⟨hused, hname, -⟩ := entryAt_some.mp he
  subst hname
  refine ⟨?_, strdup_length NUFS_SIZE (h.closed k hk), strdup_noNul m _ _⟩
  apply List.length_pos_iff.mpr
  exact fun hnil => hused (nameAt_nil.mp hnil)

theorem DirPage.streq_iff (h : DirPage m d p) {k : Nat} (hk : k < 64) {name : Str} (hne : name ≠ [])
    (hnul : nul ∉ name) : streq m (direntName (pagesGetPage p) k) name = true ↔
      ∃ v, entryAt m p k = some (name, v) := by
  rw [streq_nameAt (h.closed k hk) hnul]
  constructor
  · intro hname
    have hused : m (direntName (pagesGetPage p) k) ≠ nul := fun hfree =>
      hne (by rw [← hname, nameAt_nil.mpr hfree])
    exact ⟨_, entryAt_some.mpr ⟨hused, hname, rfl⟩⟩
  · rintro ⟨v, he⟩
    exact (entryAt_some.mp he).2.1

theorem DirPage.find_cases (h : DirPage m d p) {name : Str} (hne : name ≠ []) (hnul : nul ∉ name) :
    (findName m (pagesGetPage p) name = none ∧ ∀ k < 64, ∀ v, entryAt m p k ≠ some (name, v)) ∨
    ∃ k v, findName m (pagesGetPage p) name = some k ∧ k < 64 ∧ entryAt m p k = some (name, v) ∧
      ∀ j < k, ∀ w, entryAt m p j ≠ some (name, w) := by
  have hother : ∀ k < 64, streq m (direntName (pagesGetPage p) k) name = false →
      ∀ v, entryAt m p k ≠ some (name, v) := by
    intro k hk hdiff v hv
    rw [(h.streq_iff hk hne hnul).mpr ⟨v, hv⟩] at hdiff
    cases hdiff
  cases hfind : findName m (pagesGetPage p) name with
  | none => exact Or.inl ⟨rfl, fun k hk => hother k hk (findName_none hfind k hk)⟩
  | some k =>
    obtain ⟨hk, hsame, hless⟩ := findName_some hfind
    obtain ⟨v, hv⟩ := (h.streq_iff hk hne hnul).mp hsame
    exact Or.inr ⟨k, v, rfl, hk, hv, fun j hj => hother j (by omega) (hless j hj)⟩

theorem DirPage.lookup_eq (h : DirPage m d p) {name : Str} (hne : name ≠ []) (hnul : nul ∉ name) :
    directoryLookup m (getInode d) name = (firstValue 64 (entryAt m p) name).getD (-ENOENT) := by
  have hbase := h.base
  rcases h.find_cases hne hnul with ⟨hfind, hnone⟩ | ⟨k, v, hfind, hk, hv, hless⟩
  · rw [← hbase] at hfind
    rw [directoryLookup_none hfind, firstValue_none.mpr hnone]
    rfl
  · rw [← hbase] at hfind
    rw [directoryLookup_some hfind, hbase, firstValue_first hk hv hless]
    exact (entryAt_some.mp hv).2.2

theorem foldl_cons_filterMap {f : Nat → Option Str} {g : Nat → Str} {P : Nat → Prop}
    [DecidablePred P]
    (hf : ∀ k, f k = if P k then some (g k) else none) (is : List Nat) (ys : List Str) :
    is.foldl (fun ys k => if P k then g k :: ys else ys) ys = (is.filterMap f).reverse ++ ys := by
  induction is generalizing ys with
  | nil => rfl
  | cons k is ih =>
    rw [List.foldl_cons, ih, List.filterMap_cons, hf k]
    by_cases h : P k
    · simp [h]
    · simp [h]

theorem DirPage.list_eq (h : DirPage m d p) :
    directoryList m (getInode d) = (slotKeys 64 (entryAt m p)).reverse := by
  unfold directoryList slotKeys
  dsimp only
  rw [h.base, foldl_cons_filterMap (f := fun k => (entryAt m p k).map Prod.fst)
    (g := fun k => strdup m (direntName (pagesGetPage p) k) NUFS_SIZE), List.append_nil]
  intro k
  unfold entryAt
  by_cases hk : m (direntName (pagesGetPage p) k) = nul
  · simp [hk]
  · simp [hk, nameAt]

end

/-! ## Putting and deleting -/

section

variable {m m' : Image} {d p k : Nat}

theorem slot_page {j : Nat} (hj : j < 64) : ∀ x ∈ slot p j, x ∈ span (pagesGetPage p) 4096 := by
  intro x hx
  simp only [slot, direntName, mem_span] at hx ⊢
  omega

section

variable {T : Set Int} (hT : ∀ x ∈ span (pagesGetPage p) 4096, x ∉ T)
  (hchanged : ChangedIn {x | x ∈ slot p k ∨ x ∈ T} m m') (hk : k < 64)

include hT hchanged hk

theorem slot_kept {j : Nat} (hj : j < 64) (hne : j ≠ k) : ∀ x ∈ slot p j, m' x = m x := by
  intro x hx
  apply hchanged
  rintro (hslot | hmem)
  · exact slot_disjoint hj hk (fun hc => hne hc.2) x hx hslot
  · exact hT x (slot_page hj x hx) hmem

/-- The other entries do not see what happens to one, nor what happens off the page. -/
theorem entryAt_other (h : DirPage m d p) {j : Nat} (hj : j < 64) (hne : j ≠ k) :
    m' (direntName (pagesGetPage p) j + (59 : Nat)) =
    m (direntName (pagesGetPage p) j + (59 : Nat)) ∧
      entryAt m' p j = entryAt m p j := by
  have hbyte : ∀ i : Nat, i < 64 →
      m' (direntName (pagesGetPage p) j + i) = m (direntName (pagesGetPage p) j + i) := by
    intro i hi
    apply slot_kept hT hchanged hk hj hne
    simp only [slot, mem_span]
    omega
  have hfirst := hbyte 0 (by decide)
  simp only [Int.natCast_zero, Int.add_zero] at hfirst
  have hname : nameAt m' p j = nameAt m p j :=
    strdup_congr NUFS_SIZE (h.closed j hj) fun i hi => hbyte i (by omega)
  have hinum :
      int32 m' (direntInum (pagesGetPage p) j) = int32 m (direntInum (pagesGetPage p) j) := by
    apply hchanged.int32
    rintro x hx (hslot | hmem)
    · refine slot_disjoint (p := p) (q := p) hj hk (fun hc => hne hc.2) x ?_ hslot
      simp only [slot, direntName, direntInum, mem_span] at hx ⊢
      omega
    · refine hT x ?_ hmem
      simp only [direntInum, mem_span] at hx ⊢
      omega
  refine ⟨hbyte 59 (by decide), ?_⟩
  unfold entryAt
  rw [hfirst, hname, hinum]

/-- After a deletion, wherever the inode was given back. -/
theorem DirPage.clear (h : DirPage m d p) (hfree : m' (direntName (pagesGetPage p) k) = nul)
    (htail : m' (direntName (pagesGetPage p) k + (59 : Nat)) =
      m (direntName (pagesGetPage p) k + (59 : Nat)))
    (hptr : ptr m' d 0 = ptr m d 0) :
    DirPage m' d p ∧ ∀ j < 64, entryAt m' p j = Function.update (entryAt m p) k none j := by
  refine ⟨⟨hptr.trans h.page, fun j hj => ?_⟩, fun j hj => ?_⟩
  · by_cases hjk : j = k
    · rw [hjk, htail]
      exact h.closed k hk
    · rw [(entryAt_other hT hchanged hk h hj hjk).1]
      exact h.closed j hj
  · by_cases hjk : j = k
    · rw [hjk, Function.update_self]
      exact entryAt_none.mpr hfree
    · rw [Function.update_of_ne hjk]
      exact (entryAt_other hT hchanged hk h hj hjk).2

end

theorem below_page (h2 : 2 ≤ p) {T : Set Int} (hT : ∀ x ∈ T, x < 8192) :
    ∀ x ∈ span (pagesGetPage p) 4096, x ∉ T := by
  intro x hx hmem
  have := hT x hmem
  simp only [pagesGetPage, mem_span] at hx
  omega

theorem DirPage.put (h2 : 2 ≤ p) (h : DirPage m d p) (hd : d < 256) {inum : Nat} (hi : inum < 256)
    {name : Str} (hput : Put m m' p name inum k) (hne : name ≠ []) (hnul : nul ∉ name) :
    DirPage m' d p ∧ ∀ j < 64, entryAt m' p j =
      Function.update (entryAt m p) k (some (name.take 59, (inum : Int))) j := by
  have hT := below_page h2 (header_below hi)
  refine ⟨⟨?_, fun j hj => ?_⟩, fun j hj => ?_⟩
  · rw [ptr_header h2 hput.changed hd (by decide)]
    exact h.page
  · by_cases hjk : j = k
    · rw [hjk]
      exact hput.text 59 (by decide)
    · rw [(entryAt_other hT hput.changed hput.lt h hj hjk).1]
      exact h.closed j hj
  · by_cases hjk : j = k
    · rw [hjk, Function.update_self]
      exact entryAt_some.mpr ⟨hput.used hne hnul, hput.strdup hnul, hput.target⟩
    · rw [Function.update_of_ne hjk]
      exact (entryAt_other hT hput.changed hput.lt h hj hjk).2

theorem DirPage.put_other (h2 : 2 ≤ p) (h : DirPage m d p) (hd : d < 256) {inum : Nat}
    (hi : inum < 256)
    {name base : Str} (hput : Put m m' p name inum k) (hne : name ≠ []) (hnul : nul ∉ name)
    (hbase : base ≠ []) (hbasenul : nul ∉ base) (hother : base ≠ name.take 59) :
    directoryLookup m' (getInode d) base = directoryLookup m (getInode d) base := by
  obtain ⟨hpage, hentries⟩ := h.put h2 hd hi hput hne hnul
  have hfree := entryAt_none.mpr hput.free
  have hsame : firstValue 64 (entryAt m' p) base =
      firstValue 64 (Function.update (entryAt m p) k (some (name.take 59, (inum : Int)))) base := by
    apply firstValue_congr
    intro j hj v
    rw [hentries j hj]
  rw [hpage.lookup_eq hbase hbasenul, h.lookup_eq hbase hbasenul, hsame, firstValue_update]
  · intro v hv
    rw [hfree] at hv
    cases hv
  · intro v hv
    simp only [Option.some.injEq, Prod.mk.injEq] at hv
    exact hother hv.1.symm

theorem DirPage.put_found (h2 : 2 ≤ p) (h : DirPage m d p) (hd : d < 256) {inum : Nat}
    (hi : inum < 256)
    {name : Str} (hput : Put m m' p name inum k) (hne : name ≠ []) (hnul : nul ∉ name)
    (hlen : name.length ≤ 59) (habsent : ∀ j < 64, ∀ v, entryAt m p j ≠ some (name, v)) :
    directoryLookup m' (getInode d) name = inum := by
  obtain ⟨hpage, hentries⟩ := h.put h2 hd hi hput hne hnul
  rw [List.take_of_length_le hlen] at hentries
  have hsame : firstValue 64 (entryAt m' p) name =
      firstValue 64 (Function.update (entryAt m p) k (some (name, (inum : Int)))) name := by
    apply firstValue_congr
    intro j hj v
    rw [hentries j hj]
  rw [hpage.lookup_eq hne hnul, hsame, firstValue_fill hput.lt habsent]
  rfl

end

/-! ## Runs -/

abbrev DirMap := Finmap fun _ : Str => Int

inductive DirOp
  | put (name : Str) (inum : Nat)
  | delete (name : Str)

def DirOp.step (d : Nat) (m : Image) : DirOp → Image × Int
  | .put name inum => directoryPut m (getInode d) name inum
  | .delete name => directoryDelete m (getInode d) name

/-- The same operation on the map. -/
def DirOp.spec (f : DirMap) : DirOp → DirMap × Int
  | .put name inum =>
    if name ∈ f ∨ f.keys.card = 64 then (f, -1) else (f.insert name (inum : Int), 0)
  | .delete name => if name ∈ f then (f.erase name, 0) else (f, -ENOENT)

/-- A regular file in use that has never been grown. -/
def FreshFile (m : Image) (i : Nat) : Prop := IsFile m i ∧ ∀ j < 3, ptr m i j = 0

def DirOp.Legal (m : Image) : DirOp → Prop
  | .put name inum => EntryName name ∧ 0 < inum ∧ FreshFile m inum
  | .delete name => EntryName name

/-- Lookup and list show the map. -/
structure Shows (m : Image) (d : Nat) (f : DirMap) : Prop where
  lookup : ∀ name, name ≠ [] → nul ∉ name →
    directoryLookup m (getInode d) name = (f.lookup name).getD (-ENOENT)
  nodup : (directoryList m (getInode d)).Nodup
  listed : ∀ name, name ∈ directoryList m (getInode d) ↔ name ∈ f

/-- Code and map take every step of the run together; what the map refuses
changes nothing. -/
def Follows (d : Nat) : Image → DirMap → List DirOp → Prop
  | m, f, [] => Shows m d f
  | m, f, op :: ops => Shows m d f ∧ (op.step d m).2 = (op.spec f).2 ∧
    ((op.spec f).2 < 0 → (op.step d m).1 = m) ∧ Follows d (op.step d m).1 (op.spec f).1 ops

def AlongDir (d : Nat) : Image → List DirOp → Prop
  | _, [] => True
  | m, op :: ops => op.Legal m ∧ AlongDir d (op.step d m).1 ops

instance (m : Image) (i : Nat) : Decidable (FreshFile m i) := inferInstanceAs (Decidable (_ ∧ _))
instance (m : Image) : (op : DirOp) → Decidable (op.Legal m)
  | .put _ _ => inferInstanceAs (Decidable (_ ∧ _ ∧ _))
  | .delete _ => inferInstanceAs (Decidable (EntryName _))
instance decidableAlongDir (d : Nat) :
    (m : Image) → (ops : List DirOp) → Decidable (AlongDir d m ops)
  | _, [] => isTrue trivial
  | m, op :: ops =>
    have := decidableAlongDir d (op.step d m).1 ops
    inferInstanceAs (Decidable (op.Legal m ∧ _))
structure MapState (m : Image) (d p : Nat) (f : DirMap) : Prop extends DirPage m d p where
  dir : IsDir m d
  slots : Represents 64 (entryAt m p) f
  target : ∀ k < 64, ∀ name v, entryAt m p k = some (name, v) →
    ∃ n : Nat, v = n ∧ 0 < n ∧ n < 256 ∧ n ≠ d ∧ ∀ j < 3, ptr m n j = 0

namespace MapState

variable {m : Image} {d p : Nat} {f : DirMap}

theorem shows (h : MapState m d p f) : Shows m d f := by
  constructor
  · intro name hne hnul
    rw [h.lookup_eq hne hnul, h.slots.firstValue_eq]
  · rw [h.list_eq, List.nodup_reverse]
    exact h.slots.slotKeys_nodup
  · intro name
    rw [h.list_eq, List.mem_reverse, mem_slotKeys, h.slots.mem_iff]

/-- What the code asks for is whether the name is there. -/
theorem present_iff (h : MapState m d p f) {name : Str} (hne : name ≠ []) (hnul : nul ∉ name) :
    0 < directoryLookup m (getInode d) name ↔ name ∈ f := by
  rw [h.shows.lookup name hne hnul]
  constructor
  · intro hpos
    by_contra habsent
    rw [Finmap.lookup_eq_none.mpr habsent] at hpos
    simp [ENOENT] at hpos
  · intro hmem
    obtain ⟨v, hv⟩ := Finmap.mem_iff.mp hmem
    obtain ⟨k, hk, he⟩ := (h.slots.lookup name v).mp hv
    obtain ⟨n, hvn, hpos, -⟩ := h.target k hk name v he
    rw [hv, Option.getD_some]
    omega

theorem put (h2 : 2 ≤ p) (hd : d < 256) (h : MapState m d p f) {name : Str} {inum : Nat}
    (hname : EntryName name) (hpos : 0 < inum) (hfresh : FreshFile m inum) :
    let s := directoryPut m (getInode d) name inum
    let t := (DirOp.put name inum).spec f
    s.2 = t.2 ∧ (t.2 < 0 → s.1 = m) ∧ MapState s.1 d p t.1 := by
  have hne : name ≠ [] := List.ne_nil_of_length_pos hname.1
  obtain ⟨hfile, hptrs⟩ := hfresh
  have hi : inum < 256 := by
    have := hfile.2.1
    omega
  have hother : inum ≠ d := fun heq => by
    have hreg := hfile.2.2.2
    have hdir := h.dir.2.2.2
    rw [heq, hdir] at hreg
    cases hreg
  dsimp only [DirOp.spec]
  rcases directoryPut_cases name h.base h2 hi with ⟨hput, hwhy⟩ | ⟨hlook, -, m', k, hput, hnew⟩
  · have hrefused : name ∈ f ∨ f.keys.card = 64 := by
      rcases hwhy with hthere | hlong | hfull
      · exact Or.inl ((h.present_iff hne hname.2.2).mp hthere)
      · have := hname.2.1
        omega
      · exact Or.inr (h.slots.card_keys.mpr fun k hk he => hfull k hk (entryAt_none.mp he))
    rw [hput, if_pos hrefused]
    exact ⟨rfl, fun _ => rfl, h⟩
  · have habsent : name ∉ f := fun hmem => by
      have := (h.present_iff hne hname.2.2).mpr hmem
      omega
    have hfree : entryAt m p k = none := entryAt_none.mpr hnew.free
    have haccepted : ¬(name ∈ f ∨ f.keys.card = 64) := by
      rintro (hmem | hfull)
      · exact habsent hmem
      · exact h.slots.card_keys.mp hfull k hnew.lt hfree
    have htake : name.take 59 = name := List.take_of_length_le hname.2.1
    obtain ⟨hpage, hentries⟩ := h.toDirPage.put h2 hd hi hnew hne hname.2.2
    rw [htake] at hentries
    have hptr : ∀ x < 256, ∀ j < 3, ptr m' x j = ptr m x j := fun x hx j hj =>
      ptr_header h2 hnew.changed hx hj
    rw [hput, if_neg haccepted]
    refine ⟨rfl, fun hneg => absurd hneg (Int.lt_irrefl 0), hpage,
      (isDir_header h2 hnew.changed d).mpr h.dir,
      (h.slots.insert hnew.lt hfree habsent (inum : Int)).congr hentries, ?_⟩
    intro j hj name' v he
    rw [hentries j hj] at he
    by_cases hjk : j = k
    · rw [hjk, Function.update_self] at he
      simp only [Option.some.injEq, Prod.mk.injEq] at he
      refine ⟨inum, he.2.symm, hpos, hi, hother, fun r hr => ?_⟩
      rw [hptr inum hi r hr]
      exact hptrs r hr
    · rw [Function.update_of_ne hjk] at he
      obtain ⟨n, hvn, hn0, hn, hnd, hzero⟩ := h.target j hj name' v he
      refine ⟨n, hvn, hn0, hn, hnd, fun r hr => ?_⟩
      rw [hptr n hn r hr]
      exact hzero r hr

theorem delete (h2 : 2 ≤ p) (hd : d < 256) (h : MapState m d p f) {name : Str}
    (hname : EntryName name) : let s := directoryDelete m (getInode d) name
    let t := (DirOp.delete name).spec f
    s.2 = t.2 ∧ (t.2 < 0 → s.1 = m) ∧ MapState s.1 d p t.1 := by
  have hne : name ≠ [] := List.ne_nil_of_length_pos hname.1
  dsimp only [DirOp.spec]
  rcases h.find_cases hne hname.2.2 with ⟨hfind, hnone⟩ | ⟨k, v, hfind, hk, he, -⟩
  · have habsent : name ∉ f := fun hmem => by
      obtain ⟨k, hk, v, he⟩ := h.slots.mem_iff.mp hmem
      exact hnone k hk v he
    rw [directoryDelete_missing h.base hfind, if_neg habsent]
    exact ⟨rfl, fun _ => rfl, h⟩
  · obtain ⟨n, hvn, hn0, hn, hnd, hzero⟩ := h.target k hk name v he
    have hmem : name ∈ f := h.slots.mem_iff.mpr ⟨k, hk, v, he⟩
    have hsmall : Small m n :=
      ⟨Or.inl (hzero 0 (by decide)), hzero 1 (by decide), hzero 2 (by decide)⟩
    have htarget : int32 m (direntInum (pagesGetPage p) k) = n := (entryAt_some.mp he).2.2.trans hvn
    obtain ⟨m', hdelete, hdrop⟩ := directoryDelete_found h.base h2 hk hfind hn htarget hsmall
    have hlost := hdrop.lost h2 hn
    obtain ⟨hpage, hentries⟩ :=
      h.toDirPage.clear (below_page h2 (inodeArea_below hn)) hdrop.changed hk
      hdrop.free (hdrop.tail 59 (by decide) (by decide))
      (hlost.ptr hd (Or.inr hnd.symm) (by decide))
    rw [hdelete, if_pos hmem]
    refine ⟨rfl, fun hneg => absurd hneg (Int.lt_irrefl 0), hpage, ?_,
      (h.slots.erase hk he).congr hentries, ?_⟩
    · refine (isDir_congr (fun _ _ => ?_) fun _ _ => ?_).mpr h.dir
      · have hbit := hlost.inodes d hd
        rw [if_neg fun hc => hnd hc.1.symm] at hbit
        rw [Int.toNat_natCast, Allocated, Allocated, hbit]
      · exact hlost.nodes d hd (Or.inr hnd.symm) Inode.mode (by decide) (by decide)
    · intro j hj name' v' he'
      rw [hentries j hj] at he'
      by_cases hjk : j = k
      · rw [hjk, Function.update_self] at he'
        cases he'
      · rw [Function.update_of_ne hjk] at he'
        obtain ⟨n', hvn', hn0', hn', hnd', hzero'⟩ := h.target j hj name' v' he'
        refine ⟨n', hvn', hn0', hn', hnd', fun r hr => ?_⟩
        by_cases hgone : refs m n = 1 ∧ n' = n
        · rw [hgone.2]
          exact (hdrop.last hgone.1).ptrs r hr
        · rw [hlost.ptr hn' (not_and_or.mp hgone) hr]
          exact hzero' r hr

theorem run (h2 : 2 ≤ p) (hd : d < 256) (ops : List DirOp) (h : MapState m d p f)
    (hlegal : AlongDir d m ops) : Follows d m f ops := by
  induction ops generalizing m f with
  | nil => exact h.shows
  | cons op ops ih =>
    obtain ⟨hop, hrest⟩ := hlegal
    have hstep : (op.step d m).2 = (op.spec f).2 ∧ ((op.spec f).2 < 0 → (op.step d m).1 = m) ∧
        MapState (op.step d m).1 d p (op.spec f).1 := by
      cases op with
      | put name inum => exact h.put h2 hd hop.1 hop.2.1 hop.2.2
      | delete name => exact h.delete h2 hd hop
    exact ⟨h.shows, hstep.1, hstep.2.1, ih hstep.2.2 hrest⟩

end MapState

theorem MapState.start {m : Image} {d p : Nat} (hdir : IsDir m d) (hpage : ptr m d 0 = p)
    (hzero : ∀ x ∈ span (pagesGetPage p) 4096, m x = 0) : MapState m d p ∅ := by
  have hbyte : ∀ k < 64, ∀ i < 64, m (direntName (pagesGetPage p) k + ((i : Nat) : Int)) = nul := by
    intro k hk i hi
    apply hzero
    simp only [direntName, mem_span]
    omega
  have hfree : ∀ k < 64, entryAt m p k = none := by
    intro k hk
    have hfirst := hbyte k hk 0 (by decide)
    rw [Int.natCast_zero, Int.add_zero] at hfirst
    exact entryAt_none.mpr hfirst
  refine ⟨⟨hpage, fun k hk => hbyte k hk 59 (by decide)⟩, hdir, Represents.empty hfree, ?_⟩
  intro k hk name v he
  rw [hfree k hk] at he
  cases he

theorem directory_is_finite_map {m : Image} {d p : Nat} (hdir : IsDir m d) (hpage : ptr m d 0 = p)
    (h2 : 2 ≤ p) (hzero : ∀ x ∈ span (pagesGetPage p) 4096, m x = 0) (ops : List DirOp)
    (hlegal : AlongDir d m ops) : Follows d m ∅ ops := by
  have hd : d < 256 := by
    have := hdir.2.1
    omega
  exact (MapState.start hdir hpage hzero).run h2 hd ops hlegal

/-- The root of a new image, with one file that has no name yet. -/
def namelessFile : Image := (allocInode (storageInit fun _ => 0)).1

theorem namelessFile_blank {x : Int} (hlo : 8192 ≤ x) (hhi : x < NUFS_SIZE) :
    namelessFile x = 0 := by
  obtain ⟨m, hinit, hdir⟩ := storageInit_cases fun _ => 0
  have hroot : m x = 0 := by
    rw [hdir.changed x fun hmem => by
      have := inodeArea_below (by decide) x hmem
      omega]
    exact byte_pagesInit _ (by omega) hhi
  unfold namelessFile
  rw [hinit]
  rcases allocInode_cases m with ⟨hfull, -⟩ | ⟨m', i, hi, -, -, halloc, hnew⟩
  · rw [hfull]
    exact hroot
  · rw [halloc]
    dsimp only
    rw [hnew.changed x, hroot]
    simp only [getInode_eq, mem_span, Set.mem_ofPred_eq]
    omega

theorem namelessFile_root : ∀ x ∈ span (pagesGetPage 2) 4096, namelessFile x = 0 := by
  intro x hx
  have hrange : 8192 ≤ x ∧ x < 8192 + 4096 := hx
  exact namelessFile_blank hrange.1 (Int.lt_of_lt_of_le hrange.2 (by decide))

theorem root_is_finite_map : Follows 0 namelessFile ∅
    [.put [0x61] 1, .put [0x61] 1, .put [0x62] 1, .delete [0x61], .delete [0x61]] := by
  exact directory_is_finite_map (p := 2) (by decide +kernel) (by decide +kernel) (by decide)
    namelessFile_root _ (by decide +kernel)

end Cs3650.Nufs
