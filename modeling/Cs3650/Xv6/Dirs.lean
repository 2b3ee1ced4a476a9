import Cs3650.Lib.Memory
import Cs3650.Lib.SlotTable

/-!
# Directories (hw09/starter-hw09/xv6: fs.c, and of sysfile.c what unlink clears)

A directory is the list of its entries; an entry is in use if its `inum` is not 0.
A name has at most 14 bytes, and a NUL behind it if there is room. A panic is `none`.
The disk has a block free whenever `dirlink` needs one.
-/

namespace Cs3650.Xv6.Dirs

open Cs3650.Lib

def DIRSIZ : Nat := 14

/-- As many entries as a file of `MAXFILE` blocks has room for. -/
def MAXENTRIES : Nat := 140 * 512 / 16

/-- The bytes of a string or of an array; behind them there are zeros. -/
abbrev Chars := List Byte

/-- `strncmp(p, q, n) == 0` -/
def strncmp : Nat → Chars → Chars → Bool
  | 0, _, _ => true
  | n + 1, p, q =>
    if p.headD 0 ≠ 0 ∧ p.headD 0 = q.headD 0 then strncmp n p.tail q.tail
      else p.headD 0 == q.headD 0

def strncpy : Nat → Chars → Chars
  | 0, _ => []
  | n + 1, t => if t.headD 0 = 0 then List.replicate (n + 1) 0 else t.headD 0 :: strncpy n t.tail

def namecmp (s t : Chars) : Bool := strncmp DIRSIZ s t

structure Dirent where
  inum : Nat
  name : Chars
  deriving DecidableEq, Repr

abbrev Dir := List Dirent

/-- The number of the entry and its `inum`. -/
def dirlookup (dp : Dir) (name : Chars) : Option (Nat × Nat) :=
  (dp.findIdx? fun de => de.inum != 0 && namecmp name de.name).bind fun off =>
    dp[off]?.map fun de => (off, de.inum)

/-- `inum` is stored as a `ushort`. -/
def dirlink (dp : Dir) (name : Chars) (inum : Nat) : Option (Dir × Int) :=
  if (dirlookup dp name).isSome then some (dp, -1)
  else
    let off := dp.findIdx fun de => de.inum == 0
    let de : Dirent := ⟨inum % 2 ^ 16, strncpy DIRSIZ name⟩
    if off < dp.length then some (dp.set off de, 0)
    else if dp.length < MAXENTRIES then some (dp ++ [de], 0)
    else none

/-- What `sys_unlink` does to the directory, if the file may be removed. -/
def unlink (dp : Dir) (name : Chars) : Dir × Int :=
  if namecmp name [0x2E] ∨ namecmp name [0x2E, 0x2E] then (dp, -1)
  else
    match dirlookup dp name with
    | none => (dp, -1)
    | some (off, _) => (dp.set off ⟨0, List.replicate DIRSIZ 0⟩, 0)

inductive DirOp
  | lookup (name : Chars)
  | link (name : Chars) (inum : Nat)
  | unlink (name : Chars)
  deriving DecidableEq, Repr

def DirOp.run (dp : Dir) : DirOp → Option (Dir × Int)
  | .lookup name => some (dp, ((dirlookup dp name).map fun e => Int.ofNat e.2).getD 0)
  | .link name inum => dirlink dp name inum
  | .unlink name => some (Dirs.unlink dp name)

def runs (dp : Dir) : List DirOp → Option (Dir × List Int)
  | [] => some (dp, [])
  | op :: ops => do
    let (dp₁, r) ← op.run dp
    let (dp', rs) ← runs dp₁ ops
    some (dp', r :: rs)

section Names

/-- The name that the bytes stand for. -/
def nameOf (n : Nat) (s : Chars) : Chars := (s.take n).takeWhile (· ≠ 0)

theorem nameOf_zero (s : Chars) : nameOf 0 s = [] := by simp [nameOf]

theorem nameOf_succ (n : Nat) (s : Chars) :
    nameOf (n + 1) s = if s.headD 0 = 0 then [] else s.headD 0 :: nameOf n s.tail := by
  cases s with
  | nil => simp [nameOf]
  | cons b s =>
    simp only [nameOf, List.take_succ_cons, List.takeWhile_cons, List.headD_cons, List.tail_cons]
    by_cases hb : b = 0 <;> simp [hb]

theorem strncmp_iff (n : Nat) (p q : Chars) : strncmp n p q = true ↔ nameOf n p = nameOf n q := by
  induction n generalizing p q with
  | zero => simp [strncmp, nameOf_zero]
  | succ n ih =>
    have htail : strncmp n p.tail q.tail = true ↔ nameOf n p.tail = nameOf n q.tail :=
      ih p.tail q.tail
    rw [strncmp, nameOf_succ, nameOf_succ]
    generalize p.headD 0 = a, q.headD 0 = b
    by_cases ha : a = 0 <;> by_cases hb : b = 0 <;> by_cases hab : a = b <;> simp_all

theorem nameOf_strncpy (n : Nat) (t : Chars) : nameOf n (strncpy n t) = nameOf n t := by
  induction n generalizing t with
  | zero => simp [nameOf_zero]
  | succ n ih =>
    rw [strncpy, nameOf_succ n t]
    by_cases ht : t.headD 0 = 0
    · rw [if_pos ht, if_pos ht, nameOf_succ]
      simp [List.replicate_succ]
    · rw [if_neg ht, if_neg ht, nameOf_succ]
      simp only [List.headD_cons, List.tail_cons, ih, if_neg ht]

theorem namecmp_iff (s t : Chars) : namecmp s t = true ↔ nameOf DIRSIZ s = nameOf DIRSIZ t :=
  strncmp_iff DIRSIZ s t

end Names

section Entries

/-- An entry in use has a name and an inode number. -/
def Dirent.entry (de : Dirent) : Option (Chars × Nat) :=
  if de.inum = 0 then none else some (nameOf DIRSIZ de.name, de.inum)

def table (dp : Dir) (i : Nat) : Option (Chars × Nat) := dp[i]?.bind Dirent.entry

variable {dp : Dir} {de : Dirent} {name : Chars} {off inum i : Nat}

theorem table_of_lt (h : i < dp.length) : table dp i = dp[i].entry := by
  simp [table, List.getElem?_eq_getElem h]

theorem table_of_le (h : dp.length ≤ i) : table dp i = none := by
  simp [table, List.getElem?_eq_none h]

theorem table_set (h : off < dp.length) :
    table (dp.set off de) = Function.update (table dp) off de.entry := by
  funext i
  by_cases hi : i = off
  · subst hi
    simp [table, List.getElem?_set_self h]
  · simp [table, List.getElem?_set_ne (Ne.symm hi), hi]

theorem table_append : table (dp ++ [de]) = Function.update (table dp) dp.length de.entry := by
  funext i
  rcases lt_trichotomy i dp.length with hlt | rfl | hgt
  · simp [table, List.getElem?_append_left hlt, hlt.ne]
  · simp [table]
  · have hlen : (dp ++ [de]).length ≤ i := by
      rw [List.length_append, List.length_singleton]
      exact hgt
    rw [Function.update_of_ne hgt.ne', table_of_le hgt.le, table_of_le hlen]

theorem entry_iff : (de.inum != 0 && namecmp name de.name) = true ↔
    de.entry = some (nameOf DIRSIZ name, de.inum) := by
  rw [Dirent.entry, Bool.and_eq_true, namecmp_iff, bne_iff_ne]
  by_cases hi : de.inum = 0
  · rw [if_pos hi]
    exact ⟨fun hm => absurd hi hm.1, fun hm => by cases hm⟩
  · rw [if_neg hi, Option.some.injEq, Prod.mk.injEq]
    exact ⟨fun hm => ⟨hm.2.symm, rfl⟩, fun hm => ⟨hi, hm.1.symm⟩⟩

theorem matches_iff (h : i < dp.length) : (dp[i].inum != 0 && namecmp name dp[i].name) = true ↔
    table dp i = some (nameOf DIRSIZ name, dp[i].inum) := by
  rw [table_of_lt h, entry_iff]

theorem dirlookup_some (h : dirlookup dp name = some (off, inum)) :
    off < dp.length ∧ table dp off = some (nameOf DIRSIZ name, inum) := by
  obtain ⟨i, hi, hde⟩ := Option.bind_eq_some_iff.mp h
  obtain ⟨hlt, hmatch, -⟩ := List.findIdx?_eq_some_iff_getElem.mp hi
  rw [List.getElem?_eq_getElem hlt, Option.map_some, Option.some.injEq, Prod.mk.injEq] at hde
  obtain ⟨rfl, rfl⟩ := hde
  exact ⟨hlt, (matches_iff hlt).mp hmatch⟩

theorem dirlookup_none (h : dirlookup dp name = none) (i : Nat) (v : Nat) :
    table dp i ≠ some (nameOf DIRSIZ name, v) := by
  intro htable
  have hlt : i < dp.length := by
    by_contra hge
    rw [table_of_le (Nat.le_of_not_lt hge)] at htable
    cases htable
  have hv : dp[i].inum = v := by
    rw [table_of_lt hlt, Dirent.entry] at htable
    split at htable
    · cases htable
    · simpa using congrArg (Option.map Prod.snd) htable
  rw [dirlookup, Option.bind_eq_none_iff] at h
  cases hfind : dp.findIdx? fun de => de.inum != 0 && namecmp name de.name with
  | none =>
    have hno := List.findIdx?_eq_none_iff.mp hfind dp[i] (List.getElem_mem hlt)
    rw [(matches_iff hlt).mpr (hv ▸ htable)] at hno
    cases hno
  | some j =>
    obtain ⟨hj, -⟩ := List.findIdx?_eq_some_iff_getElem.mp hfind
    have hnone := h j hfind
    simp [List.getElem?_eq_getElem hj] at hnone

end Entries

section Map

/-- The names of a directory with their inode numbers. -/
abbrev Map := Finmap fun _ : Chars => Nat

/-- `.` and `..` -/
def fixed (name : Chars) : Prop := name = [0x2E] ∨ name = [0x2E, 0x2E]

instance (name : Chars) : Decidable (fixed name) := inferInstanceAs (Decidable (_ ∨ _))

/-- What the call does to the names. It panics if the names fill the largest file. -/
def DirOp.spec (f : Map) : DirOp → Option (Map × Int)
  | .lookup name => some (f, ((f.lookup (nameOf DIRSIZ name)).map Int.ofNat).getD 0)
  | .link name inum =>
    if nameOf DIRSIZ name ∈ f then some (f, -1)
    else if f.keys.card < MAXENTRIES then some (f.insert (nameOf DIRSIZ name) inum, 0)
    else none
  | .unlink name =>
    if fixed (nameOf DIRSIZ name) ∨ nameOf DIRSIZ name ∉ f then some (f, -1)
    else some (f.erase (nameOf DIRSIZ name), 0)

def specs (f : Map) : List DirOp → Option (Map × List Int)
  | [] => some (f, [])
  | op :: ops => do
    let (f₁, r) ← op.spec f
    let (f', rs) ← specs f₁ ops
    some (f', r :: rs)

/-- The greatest number of names that there are at a time. -/
def peak (f : Map) : List DirOp → Nat
  | [] => f.keys.card
  | op :: ops =>
    match op.spec f with
    | some (f₁, _) => max f.keys.card (peak f₁ ops)
    | none => f.keys.card

/-- The inode numbers that are linked fit a `ushort` and are not 0. -/
def DirOp.Ok : DirOp → Prop
  | .link _ inum => 0 < inum ∧ inum < 2 ^ 16
  | .lookup _ | .unlink _ => True

structure Holds (dp : Dir) (f : Map) : Prop where
  represents : Represents dp.length (table dp) f
  room : dp.length ≤ MAXENTRIES

variable {dp : Dir} {f : Map} {name : Chars} {inum : Nat} {op : DirOp} {ops : List DirOp}

theorem Holds.lookup (h : Holds dp f) (name : Chars) :
    (dirlookup dp name).map Prod.snd = f.lookup (nameOf DIRSIZ name) := by
  cases hlook : dirlookup dp name with
  | none =>
    have habsent : nameOf DIRSIZ name ∉ f := fun hmem => by
      obtain ⟨i, -, v, hv⟩ := h.represents.mem_iff.mp hmem
      exact dirlookup_none hlook i v hv
    exact (Finmap.lookup_eq_none.mpr habsent).symm
  | some e =>
    obtain ⟨off, inum⟩ := e
    obtain ⟨hlt, htable⟩ := dirlookup_some hlook
    exact ((h.represents.lookup _ _).mpr ⟨off, hlt, htable⟩).symm

theorem Holds.isSome (h : Holds dp f) : (dirlookup dp name).isSome = true ↔
    nameOf DIRSIZ name ∈ f := by
  rw [← Finmap.lookup_isSome, ← h.lookup name, Option.isSome_map]

theorem card_le_peak (f : Map) (ops : List DirOp) : f.keys.card ≤ peak f ops := by
  cases ops with
  | nil => exact le_refl _
  | cons op ops =>
    rw [peak]
    split
    · exact le_max_left _ _
    · exact le_refl _

theorem represents_extend {t : Nat → Option (Chars × Nat)} {n : Nat} (h : Represents n t f)
    (hnone : t n = none) : Represents (n + 1) t f where
  single i hi j hj key v w hv hw := by
    have hi' : i < n := by
      rcases Nat.lt_succ_iff_lt_or_eq.mp hi with hlt | rfl
      · exact hlt
      · simp [hnone] at hv
    have hj' : j < n := by
      rcases Nat.lt_succ_iff_lt_or_eq.mp hj with hlt | rfl
      · exact hlt
      · simp [hnone] at hw
    exact h.single i hi' j hj' key v w hv hw
  lookup key v := by
    rw [h.lookup]
    constructor
    · rintro ⟨i, hi, hv⟩
      exact ⟨i, Nat.lt_succ_of_lt hi, hv⟩
    · rintro ⟨i, hi, hv⟩
      rcases Nat.lt_succ_iff_lt_or_eq.mp hi with hlt | rfl
      · exact ⟨i, hlt, hv⟩
      · simp [hnone] at hv

theorem entry_new (hinum : 0 < inum ∧ inum < 2 ^ 16) :
    Dirent.entry ⟨inum % 2 ^ 16, strncpy DIRSIZ name⟩ = some (nameOf DIRSIZ name, inum) := by
  rw [Nat.mod_eq_of_lt hinum.2, Dirent.entry, if_neg (Nat.ne_of_gt hinum.1), nameOf_strncpy]

/-- The directory and its names take the same step. -/
def Agree (r : Option (Dir × Int)) (r' : Option (Map × Int)) : Prop :=
  match r, r' with
  | some (dp, x), some (f, y) => x = y ∧ Holds dp f
  | none, none => True
  | _, _ => False

theorem Agree.of_none {r' : Option (Map × Int)} (h : Agree none r') : r' = none := by
  cases r' with
  | none => rfl
  | some e => exact h.elim

theorem Agree.of_some {e : Dir × Int} {r' : Option (Map × Int)} (h : Agree (some e) r') :
    ∃ f', r' = some (f', e.2) ∧ Holds e.1 f' := by
  cases r' with
  | none => exact h.elim
  | some e' =>
    obtain ⟨hr, hholds⟩ : e.2 = e'.2 ∧ Holds e.1 e'.1 := h
    exact ⟨e'.1, congrArg some (Prod.ext rfl hr.symm), hholds⟩

theorem Holds.card_le (h : Holds dp f) : f.keys.card ≤ dp.length := by
  have hkeys : f.keys = (slotKeys dp.length (table dp)).toFinset := by
    ext key
    rw [Finmap.mem_keys, h.represents.mem_iff, List.mem_toFinset, mem_slotKeys]
  have hlen : (slotKeys dp.length (table dp)).length ≤ (List.range dp.length).length :=
    List.length_filterMap_le _ _
  rw [List.length_range] at hlen
  rw [hkeys]
  exact (List.toFinset_card_le _).trans hlen

/-- Where no entry is free there are as many names as entries. -/
theorem Holds.full (h : Holds dp f) (hoff : ¬ (dp.findIdx fun de => de.inum == 0) < dp.length) :
    f.keys.card = dp.length := by
  refine h.represents.card_keys.mpr fun i hi hnone => hoff ?_
  refine List.findIdx_lt_length_of_exists ⟨dp[i], List.getElem_mem hi, ?_⟩
  rw [table_of_lt hi, Dirent.entry] at hnone
  split at hnone
  · next hzero => simp [hzero]
  · cases hnone

theorem Holds.link (h : Holds dp f) (hinum : 0 < inum ∧ inum < 2 ^ 16) :
    Agree (dirlink dp name inum) ((DirOp.link name inum).spec f) := by
  simp only [dirlink, DirOp.spec]
  by_cases hmem : nameOf DIRSIZ name ∈ f
  · rw [if_pos (h.isSome.mpr hmem), if_pos hmem]
    exact ⟨rfl, h⟩
  · rw [if_neg (fun hsome => hmem (h.isSome.mp hsome)), if_neg hmem]
    by_cases hoff : (dp.findIdx fun de => de.inum == 0) < dp.length
    · have hzero : dp[dp.findIdx fun de => de.inum == 0].inum = 0 := by
        simpa using List.findIdx_getElem (w := hoff)
      have hfree : table dp (dp.findIdx fun de => de.inum == 0) = none := by
        rw [table_of_lt hoff, Dirent.entry, if_pos hzero]
      have hcard : f.keys.card < MAXENTRIES := by
        have hne : f.keys.card ≠ dp.length := fun heq => h.represents.card_keys.mp heq _ hoff hfree
        have hle := h.card_le
        have hroom := h.room
        omega
      simp only [hoff, if_true, hcard]
      refine ⟨rfl, ?_, by simpa using h.room⟩
      rw [table_set hoff, List.length_set, entry_new hinum]
      exact h.represents.insert hoff hfree hmem inum
    · have hfull : f.keys.card = dp.length := h.full hoff
      simp only [hoff, if_false, hfull]
      by_cases hlt : dp.length < MAXENTRIES
      · simp only [hlt, if_true]
        refine ⟨rfl, ?_, by simpa using Nat.succ_le_of_lt hlt⟩
        rw [table_append, List.length_append, List.length_singleton, entry_new hinum]
        have hnone : table dp dp.length = none := table_of_le (le_refl _)
        exact (represents_extend h.represents hnone).insert (Nat.lt_succ_self _) hnone hmem inum
      · simp only [hlt, if_false]
        trivial

theorem Holds.unlink (h : Holds dp f) :
    Agree (some (Dirs.unlink dp name)) ((DirOp.unlink name).spec f) := by
  simp only [Dirs.unlink, DirOp.spec]
  have hfixed : (namecmp name [0x2E] = true ∨ namecmp name [0x2E, 0x2E] = true) ↔
      fixed (nameOf DIRSIZ name) := by
    rw [namecmp_iff, namecmp_iff]
    rfl
  by_cases hfix : fixed (nameOf DIRSIZ name)
  · rw [if_pos (hfixed.mpr hfix), if_pos (.inl hfix)]
    exact ⟨rfl, h⟩
  · rw [if_neg (fun hm => hfix (hfixed.mp hm))]
    cases hlook : dirlookup dp name with
    | none =>
      have habsent : nameOf DIRSIZ name ∉ f := fun hm => by simpa [hlook] using h.isSome.mpr hm
      rw [if_pos (.inr habsent)]
      exact ⟨rfl, h⟩
    | some e =>
      obtain ⟨off, inum⟩ := e
      obtain ⟨hlt, htable⟩ := dirlookup_some hlook
      have hmem : nameOf DIRSIZ name ∈ f := h.isSome.mp (by rw [hlook]; rfl)
      rw [if_neg (by simp [hfix, hmem])]
      refine ⟨rfl, ?_, by simpa using h.room⟩
      rw [table_set hlt, List.length_set]
      exact h.represents.erase hlt htable

theorem Holds.run (h : Holds dp f) (hok : op.Ok) : Agree (op.run dp) (op.spec f) := by
  cases op with
  | lookup name =>
    refine ⟨?_, h⟩
    rw [← h.lookup name, Option.map_map]
    rfl
  | link name inum => exact h.link hok
  | unlink name => exact h.unlink

/-- The directory grows in a call of `dirlink` only, and only if every entry is in use. -/
theorem Holds.length_step {dp' : Dir} {f' : Map} {r : Int} (h : Holds dp f) (hok : op.Ok)
    (hrun : op.run dp = some (dp', r)) (hspec : op.spec f = some (f', r)) :
    dp'.length = max dp.length f'.keys.card := by
  have h' : Holds dp' f' := by
    have hagree := h.run hok
    rw [hrun, hspec] at hagree
    exact hagree.2
  have hcard : f'.keys.card ≤ dp'.length := h'.card_le
  cases op with
  | lookup name =>
    obtain ⟨rfl, -⟩ := Prod.mk.inj (Option.some.inj hrun)
    omega
  | link name inum =>
    simp only [DirOp.run, dirlink] at hrun
    split at hrun
    · obtain ⟨rfl, -⟩ := Prod.mk.inj (Option.some.inj hrun)
      omega
    · next hnew =>
      split at hrun
      · obtain ⟨rfl, -⟩ := Prod.mk.inj (Option.some.inj hrun)
        rw [List.length_set] at hcard ⊢
        omega
      · next hoff =>
        split at hrun
        · obtain ⟨rfl, -⟩ := Prod.mk.inj (Option.some.inj hrun)
          have hused : ∀ i < dp.length, table dp i ≠ none := h.represents.card_keys.mp (h.full hoff)
          have hfull : f'.keys.card = dp.length + 1 := by
            rw [← List.length_singleton, ← List.length_append]
            refine h'.represents.card_keys.mpr fun i hi => ?_
            rw [List.length_append, List.length_singleton] at hi
            rw [table_append]
            by_cases hlast : i = dp.length
            · subst hlast
              rw [Function.update_self, entry_new hok]
              exact Option.some_ne_none _
            · rw [Function.update_of_ne hlast]
              exact hused i (by omega)
          rw [List.length_append, List.length_singleton]
          omega
        · cases hrun
  | unlink name =>
    have hunlink : Dirs.unlink dp name = (dp', r) := Option.some.inj hrun
    have hlen : (Dirs.unlink dp name).1.length = dp.length := by
      unfold Dirs.unlink
      split
      · rfl
      · split
        · rfl
        · exact List.length_set
    have hlen' : dp'.length = dp.length := by rwa [hunlink] at hlen
    omega

theorem holds_nil : Holds [] ∅ :=
  ⟨Represents.empty fun i hi => absurd hi (Nat.not_lt_zero i), Nat.zero_le _⟩

theorem Holds.runs_none (h : Holds dp f) (hok : ∀ op ∈ ops, op.Ok)
    (hrun : Dirs.runs dp ops = none) : specs f ops = none := by
  induction ops generalizing dp f with
  | nil => cases hrun
  | cons op ops ih =>
    have hstep : Agree (op.run dp) (op.spec f) := h.run (hok op List.mem_cons_self)
    have hrest : ∀ op' ∈ ops, op'.Ok := fun op' hop => hok op' (List.mem_cons_of_mem op hop)
    cases hop : op.run dp with
    | none =>
      rw [hop] at hstep
      rw [specs, hstep.of_none]
      rfl
    | some e =>
      rw [hop] at hstep
      obtain ⟨f₁, hspec, h₁⟩ := hstep.of_some
      have hruns : Dirs.runs e.1 ops = none := by
        cases hruns : Dirs.runs e.1 ops with
        | none => rfl
        | some e' => simp [Dirs.runs, hop, hruns] at hrun
      simp [specs, hspec, ih h₁ hrest hruns]

theorem Holds.runs_some {e : Dir × List Int} (h : Holds dp f) (hok : ∀ op ∈ ops, op.Ok)
    (hrun : Dirs.runs dp ops = some e) :
    ∃ f', specs f ops = some (f', e.2) ∧ Holds e.1 f' ∧
    e.1.length = max dp.length (peak f ops) := by
  induction ops generalizing dp f e with
  | nil =>
    obtain rfl : (dp, []) = e := Option.some.inj hrun
    exact ⟨f, rfl, h, (max_eq_left h.card_le).symm⟩
  | cons op ops ih =>
    have hrest : ∀ op' ∈ ops, op'.Ok := fun op' hop => hok op' (List.mem_cons_of_mem op hop)
    obtain ⟨e₁, hop, hrun₁⟩ := Option.bind_eq_some_iff.mp hrun
    obtain ⟨e₂, hruns, heq⟩ := Option.bind_eq_some_iff.mp hrun₁
    have hstep : Agree (op.run dp) (op.spec f) := h.run (hok op List.mem_cons_self)
    rw [hop] at hstep
    obtain ⟨f₁, hspec, h₁⟩ := hstep.of_some
    obtain ⟨f', hspecs, h', hlen⟩ := ih h₁ hrest hruns
    obtain rfl : (e₂.1, e₁.2 :: e₂.2) = e := Option.some.inj heq
    refine ⟨f', by simp [specs, hspec, hspecs], h', ?_⟩
    have hlen₁ : e₁.1.length = max dp.length f₁.keys.card :=
      h.length_step (hok op List.mem_cons_self) hop hspec
    have hpeak : peak f (op :: ops) = max f.keys.card (peak f₁ ops) := by rw [peak, hspec]
    have hle : f.keys.card ≤ dp.length := h.card_le
    have hle₁ : f₁.keys.card ≤ peak f₁ ops := card_le_peak f₁ ops
    show e₂.1.length = _
    rw [hpeak, hlen, hlen₁]
    omega

/-- Two names that differ behind the 14th byte, and an entry that is used again. -/
def twoNames : List DirOp :=
  [.link [0x2E] 1, .link (List.replicate 14 0x61 ++ [0x62]) 5,
    .link (List.replicate 14 0x61 ++ [0x63]) 6,
    .unlink [0x2E], .unlink (List.replicate 14 0x61), .link [0x64] 7, .lookup [0x64]]

end Map

end Cs3650.Xv6.Dirs
