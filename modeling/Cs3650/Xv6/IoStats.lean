import Cs3650.Lib.RefCount
import Cs3650.Xv6.FileTable
import Mathlib.Data.Fintype.Basic
import Mathlib.Data.Fintype.Prod

/-!
# I/O counters (hw09/starter-hw09/xv6: file.c)

The counters of an open file lie in its slot of the file table. Beside the
kernel goes a ledger, which gives every open file a number of its own and adds
up what its reads and writes return. `fileread` and `filewrite` add what they
were asked for instead, and `filealloc` hands a slot out with the counts of the
file before.
-/

namespace Cs3650.Xv6

open Cs3650.Lib

/-! ## The ledger -/

/-- The open file behind each descriptor, and the bytes read and written through it. -/
structure Ledger where
  opened : Pid → Fd → Option Nat
  total : Nat → Nat × Nat
  next : Nat

namespace Ledger

def empty : Ledger := ⟨fun _ _ => none, fun _ => (0, 0), 0⟩

def point (L : Ledger) (pid : Pid) (fd : Fd) (v : Option Nat) : Ledger :=
  { L with opened := Function.update L.opened pid (Function.update (L.opened pid) fd v) }

/-- A new open file. -/
def enter (L : Ledger) (pid : Pid) (fd : Fd) : Ledger :=
  { (L.point pid fd (some L.next)) with
    total := Function.update L.total L.next (0, 0)
    next := L.next + 1 }

def at' (L : Ledger) (pid : Pid) (fd : Int) : Option Nat := (toFd fd).bind (L.opened pid)

def add (L : Ledger) (file : Option Nat) (r w : Nat) : Ledger :=
  match file with
  | some n => { L with total := Function.update L.total n ((L.total n).1 + r, (L.total n).2 + w) }
  | none => L

/-- What a call adds, told by what it returns. -/
def after (L : Ledger) : Call → Result → Ledger
  | .open pid _ _, .fd (some fd) => L.enter pid fd
  | .dup pid old, .fd (some fd) => L.point pid fd (L.at' pid old)
  | .read pid fd _ _, .bytes r _ => L.add (L.at' pid fd) r.toNat 0
  | .write pid fd _ _, .int r => L.add (L.at' pid fd) 0 r.toNat
  | .pipe pid _, .fds (some (fd0, fd1)) => (L.enter pid fd0).enter pid fd1
  | .close pid fd, .int r =>
    match toFd fd with
    | some fd => if r = 0 then L.point pid fd none else L
    | none => L
  | _, _ => L

end Ledger

/-- Kernel and ledger after the calls; nothing after a panic. -/
def runCalls : Kernel → Ledger → List Call → Option (Kernel × Ledger)
  | k, L, [] => some (k, L)
  | k, L, call :: calls =>
    match call.run k with
    | none => none
    | some (k', result) => runCalls k' (L.after call result) calls

/-! ## Calls that count right -/

/-- The read is not cut short. -/
def ReadsAll (ip : Inode) (got : Option (List Byte)) (off n : Nat) : Prop :=
  if ip.type = .dev then ip.major = CONSOLE → ∀ bytes, got = some bytes → bytes ≠ [] →
    n ≤ bytes.length
  else off < ip.data.length → off + n ≤ ip.data.length

/-- The write is not refused. -/
def WritesAll (ip : Inode) (src : List Byte) (off : Nat) : Prop :=
  src = [] ∨ if ip.type = .dev then ip.major = CONSOLE else off ≤ ip.data.length ∧
    off + src.length ≤ MAXBYTES

def freeSlot (k : Kernel) : Option Slot := (List.finRange NFILE).find? fun s => (k.file s).ref == 0

/-- An open gets a slot that has not counted, and reads and writes of an inode
transfer all that they ask for, within the range of the counters. -/
def Call.Counted (k : Kernel) : Call → Prop
  | .open pid found omode => ∀ s, freeSlot k = some s → (∃ fd, k.ofile pid fd = none) →
    openInode k found omode ≠ none → (k.file s).readBytes = 0 ∧ (k.file s).writeBytes = 0
  | .read pid fd n got => ∀ fd' s, argfd k pid fd = some (fd', s) → (k.file s).type = .inode →
    (k.file s).readable = true → ReadsAll (k.inode (k.file s).ip) got (k.file s).off n.toNat ∧
      (k.file s).readBytes + n.toNat < 2 ^ 32
  | .write pid fd src _ => ∀ fd' s, argfd k pid fd = some (fd', s) → (k.file s).type = .inode →
    (k.file s).writable = true → WritesAll (k.inode (k.file s).ip) src (k.file s).off ∧
      (k.file s).writeBytes + src.length < 2 ^ 32
  | _ => True

/-- Every call of the run counts right. -/
def CountedAlong : Kernel → List Call → Prop
  | _, [] => True
  | k, call :: calls =>
    call.Counted k ∧ ∀ k' result, call.run k = some (k', result) → CountedAlong k' calls

/-! ## Books that agree -/

/-- Membership is not to be looked up in the list of the pairs. -/
@[irreducible]
def allPairs (n m : Nat) : Finset (Fin n × Fin m) := Finset.univ

theorem mem_allPairs {n m : Nat} (d : Fin n × Fin m) : d ∈ allPairs n m := by
  unfold allPairs
  exact Finset.mem_univ d

def descriptors : Finset (Pid × Fd) := allPairs NPROC NOFILE

theorem mem_descriptors (d : Pid × Fd) : d ∈ descriptors := mem_allPairs d

/-- The numbers of the files in use differ, and their totals are the counters. -/
structure Numbered (k : Kernel) (L : Ledger) (inst : Slot → Nat) : Prop where
  apart : ∀ s s', 0 < (k.file s).ref → 0 < (k.file s').ref → inst s = inst s' → s = s'
  older : ∀ s, 0 < (k.file s).ref → inst s < L.next
  counts : ∀ s, 0 < (k.file s).ref → (k.file s).type = .inode →
    L.total (inst s) = ((k.file s).readBytes, (k.file s).writeBytes)

/-- `inst` is the number of the open file in each slot that is in use. -/
structure Booked (k : Kernel) (L : Ledger) (inst : Slot → Nat) :
    Prop extends Numbered k L inst where
  refs : RefCounted descriptors {s | 0 < (k.file s).ref} (fun d : Pid × Fd => k.ofile d.1 d.2)
    fun s => (k.file s).ref
  opened : ∀ pid fd, L.opened pid fd = (k.ofile pid fd).map inst

theorem update_update {α : Type} (t : Pid → Fd → α) (pid pid' : Pid) (fd fd' : Fd) (v : α) :
    Function.update t pid (Function.update (t pid) fd v) pid' fd' = if (pid', fd') = (pid, fd)
    then v else t pid' fd' := by
  by_cases hpid : pid' = pid
  · subst hpid
    rw [Function.update_self]
    by_cases hfd : fd' = fd
    · simp [hfd]
    · simp [hfd]
  · simp [hpid]

theorem setOfile_apply (k : Kernel) (pid pid' : Pid) (fd fd' : Fd) (v : Option Slot) :
    (k.setOfile pid fd v).ofile pid' fd' = if (pid', fd') = (pid, fd) then v
    else k.ofile pid' fd' :=
  update_update k.ofile pid pid' fd fd' v

namespace Ledger

theorem point_apply (L : Ledger) (pid pid' : Pid) (fd fd' : Fd) (v : Option Nat) :
    (L.point pid fd v).opened pid' fd' = if (pid', fd') = (pid, fd) then v else L.opened pid' fd' :=
  update_update L.opened pid pid' fd fd' v

theorem add_zero (L : Ledger) (file : Option Nat) : L.add file 0 0 = L := by
  cases file with
  | none => rfl
  | some n => simp [add]

end Ledger

/-- The file `f` in the slot `s` and the descriptor `v` are all that is new. -/
structure Sets (k k' : Kernel) (s : Slot) (f : File) (pid : Pid) (fd : Fd)
    (v : Option Slot) : Prop where
  file : k'.file = Function.update k.file s f
  ofile : k'.ofile = (k.setOfile pid fd v).ofile

/-- Only slots that are not in use change, and they stay so. -/
structure Idle (k k' : Kernel) : Prop where
  ofile : k'.ofile = k.ofile
  file : ∀ s, k'.file s = k.file s ∨ (k.file s).ref = 0 ∧ (k'.file s).ref = 0

namespace Idle

variable {k k' : Kernel} {s : Slot}

theorem refl (k : Kernel) : Idle k k := ⟨rfl, fun _ => Or.inl rfl⟩

theorem used (h : Idle k k') (hs : 0 < (k.file s).ref) : k'.file s = k.file s := by
  rcases h.file s with hsame | ⟨hfree, -⟩
  · exact hsame
  · omega

theorem free (h : Idle k k') (hs : 0 < (k'.file s).ref) : 0 < (k.file s).ref := by
  rcases h.file s with hsame | ⟨-, hfree⟩
  · rwa [hsame] at hs
  · omega

end Idle

/-- The file in the slot `s` counts `r` bytes more as read and `w` more as written. -/
structure Tallies (k k' : Kernel) (s : Slot) (f : File) (r w : Nat) : Prop where
  file : k'.file = Function.update k.file s f
  ofile : k'.ofile = k.ofile
  ref : f.ref = (k.file s).ref
  type : f.type = (k.file s).type
  counts : f.type = .inode →
    f.readBytes = (k.file s).readBytes + r ∧ f.writeBytes = (k.file s).writeBytes + w

namespace Sets

variable {k k' : Kernel} {s : Slot} {f : File} {pid : Pid} {fd : Fd} {v : Option Slot}

theorem here (h : Sets k k' s f pid fd v) : k'.file s = f := by
  rw [h.file, Function.update_self]

theorem away (h : Sets k k' s f pid fd v) {s' : Slot} (hs : s' ≠ s) : k'.file s' = k.file s' := by
  rw [h.file, Function.update_of_ne hs]

theorem descriptor (h : Sets k k' s f pid fd v) (pid' : Pid) (fd' : Fd) :
    k'.ofile pid' fd' = if (pid', fd') = (pid, fd) then v else k.ofile pid' fd' := by
  rw [h.ofile, setOfile_apply]

theorem set (h : Sets k k' s f pid fd v) : k'.ofile pid fd = v := by
  rw [h.descriptor, if_pos rfl]

theorem other (h : Sets k k' s f pid fd v) :
    ∀ d ∈ descriptors, d ≠ (pid, fd) → k'.ofile d.1 d.2 = k.ofile d.1 d.2 :=
  fun d _ hd => by rw [h.descriptor, if_neg hd]

end Sets

namespace Numbered

variable {k k' : Kernel} {L L' : Ledger} {inst : Slot → Nat}

/-- No file is new, and what stays in use keeps its counters. -/
theorem keep (h : Numbered k L inst) (htotal : L'.total = L.total) (hnext : L'.next = L.next)
    (hkept : ∀ s, 0 < (k'.file s).ref → 0 < (k.file s).ref ∧ (k'.file s).type = (k.file s).type ∧
      (k'.file s).readBytes = (k.file s).readBytes ∧
      (k'.file s).writeBytes = (k.file s).writeBytes) :
    Numbered k' L' inst where
  apart s s' hs hs' := h.apart s s' (hkept s hs).1 (hkept s' hs').1
  older s hs := by
    rw [hnext]
    exact h.older s (hkept s hs).1
  counts s hs htype := by
    obtain ⟨hs', hsame, hread, hwrite⟩ := hkept s hs
    rw [htotal, hread, hwrite]
    exact h.counts s hs' (hsame ▸ htype)

end Numbered

namespace Booked

variable {k k' : Kernel} {L : Ledger} {inst : Slot → Nat} {s : Slot} {f : File}
    {pid : Pid} {fd : Fd}

theorem start (inode : Nat → Inode) : Booked (boot inode) Ledger.empty fun _ => 0 := by
  have hnone : ∀ s, ¬ 0 < ((boot inode).file s).ref := fun _ => Int.lt_irrefl 0
  exact
    { apart := fun s _ hs => absurd hs (hnone s)
      older := fun s hs => absurd hs (hnone s)
      counts := fun s hs => absurd hs (hnone s)
      refs := ⟨fun s hs => absurd hs (hnone s), fun _ _ _ h => by cases h⟩
      opened := fun _ _ => rfl }

theorem live (h : Booked k L inst) (hs : k.ofile pid fd = some s) : 0 < (k.file s).ref := by
  exact h.refs.safe (pid, fd) (mem_descriptors (pid, fd)) s hs

theorem idle (h : Booked k L inst) (hidle : Idle k k') : Booked k' L inst where
  toNumbered := h.keep rfl rfl fun s hs => by
    have hused := hidle.free hs
    rw [hidle.used hused]
    exact ⟨hused, rfl, rfl, rfl⟩
  refs := by
    have hlive : {s | 0 < (k'.file s).ref} = {s | 0 < (k.file s).ref} := by
      ext s
      refine ⟨hidle.free, fun hs => ?_⟩
      change 0 < (k'.file s).ref
      rwa [hidle.used hs]
    rw [hlive]
    refine h.refs.congr (fun d _ => by rw [hidle.ofile]) fun s hs => ?_
    rw [hidle.used hs]
  opened pid fd := by
    rw [hidle.ofile]
    exact h.opened pid fd

/-- A new file in a slot that is free. -/
theorem enter (h : Booked k L inst) (hsets : Sets k k' s f pid fd (some s))
    (hfree : (k.file s).ref = 0) (hnone : k.ofile pid fd = none) (hone : f.ref = 1)
    (hzero : f.type = .inode → f.readBytes = 0 ∧ f.writeBytes = 0) :
    Booked k' (L.enter pid fd) (Function.update inst s L.next) := by
  have hused : ∀ s', 0 < (k'.file s').ref → s' ≠ s → 0 < (k.file s').ref := by
    intro s' hs' hne
    rwa [hsets.away hne] at hs'
  have hdead : ¬ 0 < (k.file s).ref := by omega
  exact
    { apart := by
        intro s₁ s₂ h₁ h₂ hinst
        by_cases h₁s : s₁ = s
        · by_cases h₂s : s₂ = s
          · rw [h₁s, h₂s]
          · have hlt := h.older s₂ (hused s₂ h₂ h₂s)
            rw [h₁s, Function.update_self, Function.update_of_ne h₂s] at hinst
            omega
        · by_cases h₂s : s₂ = s
          · have hlt := h.older s₁ (hused s₁ h₁ h₁s)
            rw [h₂s, Function.update_self, Function.update_of_ne h₁s] at hinst
            omega
          · rw [Function.update_of_ne h₁s, Function.update_of_ne h₂s] at hinst
            exact h.apart s₁ s₂ (hused s₁ h₁ h₁s) (hused s₂ h₂ h₂s) hinst
      older := by
        intro s₁ h₁
        change _ < L.next + 1
        by_cases h₁s : s₁ = s
        · rw [h₁s, Function.update_self]
          omega
        · have hlt := h.older s₁ (hused s₁ h₁ h₁s)
          rw [Function.update_of_ne h₁s]
          omega
      counts := by
        intro s₁ h₁ htype
        change Function.update L.total L.next (0, 0) _ = _
        by_cases h₁s : s₁ = s
        · rw [h₁s, hsets.here] at htype ⊢
          obtain ⟨hread, hwrite⟩ := hzero htype
          rw [Function.update_self, Function.update_self, hread, hwrite]
        · have hlt := h.older s₁ (hused s₁ h₁ h₁s)
          rw [hsets.away h₁s] at htype ⊢
          rw [Function.update_of_ne h₁s, Function.update_of_ne (by omega)]
          exact h.counts s₁ (hused s₁ h₁ h₁s) htype
      refs := by
        have hlive : {s | 0 < (k'.file s).ref} = insert s {s | 0 < (k.file s).ref} := by
          ext s'
          by_cases hs : s' = s
          · simp [hs, hsets.here, hone]
          · simp [hs, hsets.away hs]
        -- the file is there before the descriptor is
        have hcreated := h.refs.create hdead (fun _ _ => rfl) hfree fun _ _ => rfl
        rw [hlive]
        refine hcreated.link (mem_descriptors (pid, fd)) hnone (Set.mem_insert s _) hsets.set
          hsets.other ?_ fun s' _ hs => ?_
        · rw [hsets.here, hone, hfree]
          rfl
        · rw [hsets.away hs]
      opened := by
        intro pid' fd'
        change (L.point pid fd (some L.next)).opened pid' fd' = _
        rw [L.point_apply, hsets.descriptor]
        split
        · simp
        · rw [h.opened]
          cases hs' : k.ofile pid' fd' with
          | none => rfl
          | some s' =>
            have hne : s' ≠ s := fun heq => hdead (heq ▸ h.live hs')
            rw [Option.map_some, Option.map_some, Function.update_of_ne hne] }

/-- One more descriptor of a file in use. -/
theorem share (h : Booked k L inst)
    (hsets : Sets k k' s { k.file s with ref := (k.file s).ref + 1 } pid fd (some s))
    (hs : 0 < (k.file s).ref)
    (hnone : k.ofile pid fd = none) : Booked k' (L.point pid fd (some (inst s))) inst where
  toNumbered := h.keep rfl rfl fun s' hs' => by
    by_cases hne : s' = s
    · rw [hne, hsets.here]
      exact ⟨hs, rfl, rfl, rfl⟩
    · rw [hsets.away hne] at hs' ⊢
      exact ⟨hs', rfl, rfl, rfl⟩
  refs := by
    have hlive : {s | 0 < (k'.file s).ref} = {s | 0 < (k.file s).ref} := by
      ext s'
      by_cases hne : s' = s
      · simp only [hne, Set.mem_ofPred_eq, hsets.here]
        omega
      · simp only [Set.mem_ofPred_eq, hsets.away hne]
    rw [hlive]
    refine h.refs.link (mem_descriptors (pid, fd)) hnone hs hsets.set hsets.other ?_
      fun s' _ hne => ?_
    · rw [hsets.here]
    · rw [hsets.away hne]
  opened pid' fd' := by
    rw [L.point_apply, hsets.descriptor]
    split
    · rfl
    · exact h.opened pid' fd'

/-- One descriptor less; the file stays in use when it has others. -/
theorem drop (h : Booked k L inst) (hsets : Sets k k' s f pid fd none)
    (hs : k.ofile pid fd = some s) (hlast : (k.file s).ref = 1 → ¬ 0 < f.ref)
    (hmore : (k.file s).ref ≠ 1 → f = { k.file s with ref := (k.file s).ref - 1 }) :
    Booked k' (L.point pid fd none) inst where
  toNumbered := h.keep rfl rfl fun s' hs' => by
    by_cases hne : s' = s
    · rw [hne, hsets.here] at hs' ⊢
      have hmore' := hmore fun hone => hlast hone hs'
      rw [hmore']
      exact ⟨h.live hs, rfl, rfl, rfl⟩
    · rw [hsets.away hne] at hs' ⊢
      exact ⟨hs', rfl, rfl, rfl⟩
  refs := by
    have hpos := h.live hs
    have hlive :
        {s | 0 < (k'.file s).ref} =
        {s' | s' ∈ {s | 0 < (k.file s).ref} ∧ (s' = s → (k.file s).ref ≠ 1)} := by
      ext s'
      by_cases hne : s' = s
      · simp only [hne, Set.mem_ofPred_eq, hsets.here]
        by_cases hone : (k.file s).ref = 1
        · simp [hone, hlast hone]
        · rw [hmore hone]
          simp only [hone, ne_eq, not_false_eq_true, implies_true, and_true]
          omega
      · simp only [hne, Set.mem_ofPred_eq, hsets.away hne, false_implies, and_true]
    rw [hlive]
    refine h.refs.unlink (mem_descriptors (pid, fd)) hs hsets.set hsets.other (fun hone => ?_)
      fun s' _ hne => ?_
    · rw [hsets.here, hmore hone]
    · rw [hsets.away hne]
  opened pid' fd' := by
    rw [L.point_apply, hsets.descriptor]
    split
    · rfl
    · exact h.opened pid' fd'

/-- The counters of a file go up with the ledger. -/
theorem tally (h : Booked k L inst) {r w : Nat} (htallies : Tallies k k' s f r w)
    (hs : 0 < (k.file s).ref) : Booked k' (L.add (some (inst s)) r w) inst := by
  have hrefs : ∀ s', (k'.file s').ref = (k.file s').ref := by
    intro s'
    rw [htallies.file]
    by_cases hne : s' = s
    · rw [hne, Function.update_self, htallies.ref]
    · rw [Function.update_of_ne hne]
  exact
    { apart := by
        intro s₁ s₂ h₁ h₂
        rw [hrefs] at h₁ h₂
        exact h.apart s₁ s₂ h₁ h₂
      older := by
        intro s₁ h₁
        rw [hrefs] at h₁
        exact h.older s₁ h₁
      counts := by
        intro s₁ h₁ htype₁
        change Function.update L.total (inst s) _ _ = _
        rw [hrefs] at h₁
        rw [htallies.file] at htype₁ ⊢
        by_cases hne : s₁ = s
        · subst hne
          rw [Function.update_self] at htype₁ ⊢
          obtain ⟨hread, hwrite⟩ := htallies.counts htype₁
          rw [Function.update_self, h.counts s₁ h₁ (htallies.type ▸ htype₁), hread, hwrite]
        · have hinst : inst s₁ ≠ inst s := fun heq => hne (h.apart s₁ s h₁ hs heq)
          rw [Function.update_of_ne hne] at htype₁ ⊢
          rw [Function.update_of_ne hinst]
          exact h.counts s₁ h₁ htype₁
      refs := by
        simp only [hrefs, htallies.ofile]
        exact h.refs
      opened := by
        intro pid fd
        rw [htallies.ofile]
        exact h.opened pid fd }

end Booked

end Cs3650.Xv6
